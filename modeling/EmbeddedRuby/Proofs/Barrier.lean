import EmbeddedRuby.Proofs.Run

/-!
# The barrier between the interpreter and the host

An operation of the host's runs its tasks behind a barrier and makes an error of the first jump that
comes out of one.  This module says what the barrier does to a run (`protect_apply`), and what the
two other places do where an exit is stopped (`catchPanic_apply`, `iterate_of_break`).  It then says
what an operation of one task comes to as a whole (`settled_guarded_apply`): the value of the task,
or the error that its jump surfaces as.
-/

namespace EmbeddedRuby

variable {σ α β : Type}

/-- The run ends with a value or a jump, neither by a panic nor for want of fuel. -/
def Eval.Terminates (action : Eval σ α) (w : World σ) : Prop :=
  ∀ exit w', action w = .error exit w' → ∃ jump, exit = .jump jump

/-- No jump comes out of the run. -/
def Eval.NoJump (action : Eval σ α) : Prop :=
  ∀ w jump w', action w ≠ .error (.jump jump) w'

/-- The world after a jump, with the stacks as they were in `before`. -/
def World.restored (w before : World σ) : World σ :=
  { w with machine := w.machine.restoreStacks before.machine }

namespace Eval

/-- The barrier stops jumps and restores the stacks, and lets everything else through. -/
theorem protect_apply (action : Eval σ α) (w : World σ) :
    protect action w =
      match action w with
      | .ok a w' => .ok (.ok a) w'
      | .error (.jump jump) w' => .ok (.error jump) (w'.restored w)
      | .error exit w' => .error exit w' := rfl

/-- A run in two parts terminates if both do. -/
theorem terminates_bind {x : Eval σ α} {f : α → Eval σ β} {w : World σ}
    (hx : x.Terminates w) (hf : ∀ a w', x w = .ok a w' → (f a).Terminates w') :
    (x >>= f).Terminates w := by
  intro exit w' hexit
  rcases bind_error_iff.mp hexit with h | ⟨a, w₁, hrun, h⟩
  · exact hx exit w' h
  · exact hf a w₁ hrun exit w' h

/-- No jump comes out of giving a value. -/
theorem noJump_pure (a : α) : (pure a : Eval σ α).NoJump := by
  intro w jump w' h
  cases h

/-- None comes out of two parts if none comes out of each. -/
theorem NoJump.bind {x : Eval σ α} {f : α → Eval σ β} (hx : x.NoJump)
    (hf : ∀ a, (f a).NoJump) : (x >>= f).NoJump := by
  intro w jump w' h
  rcases bind_error_iff.mp h with h | ⟨a, w₁, -, h⟩
  · exact hx w jump w' h
  · exact hf a w₁ jump w' h

/-- What terminates without a jump has a value. -/
theorem NoJump.exists_value {action : Eval σ α} (h : action.NoJump) {w : World σ}
    (hends : action.Terminates w) : ∃ a w', action w = .ok a w' := by
  cases hrun : action w with
  | ok a w' => exact ⟨a, w', rfl⟩
  | error exit w' =>
      obtain ⟨jump, rfl⟩ := hends exit w' hrun
      exact absurd hrun (h w jump w')

/-- What has asked for something gets its value or its panic. -/
theorem catchPanic_apply (action : Eval σ α) (w : World σ) :
    catchPanic action w =
      match action w with
      | .ok a w' => .ok (.ok a) w'
      | .error (.panic p) w' => .ok (.error p) w'
      | .error exit w' => .error exit w' := rfl

/-- An iteration that gives a value gives what it encloses. -/
theorem iterate_of_ok {target : Nat} {action : Eval σ Value} {v : Value} {w w' : World σ}
    (h : action w = .ok v w') : iterate target action w = .ok v w' := by
  unfold iterate
  rw [h]

/-- A break that is meant for an iteration ends it. -/
theorem iterate_of_break {target : Nat} {action : Eval σ Value} {v : Value} {w w' : World σ}
    (h : action w = .error (.jump (.breakTo (some target) v)) w') :
    iterate target action w = .ok v (w'.restored w) := by
  unfold iterate
  rw [h]
  exact if_pos rfl

/-- An iteration ends as its action does, but for a break that is meant for it. -/
theorem iterate_cases (target : Nat) (action : Eval σ Value) (w : World σ) :
    (∃ v w', action w = .error (.jump (.breakTo (some target) v)) w' ∧
        iterate target action w = .ok v (w'.restored w)) ∨
      ((∀ v w', action w ≠ .error (.jump (.breakTo (some target) v)) w') ∧
        iterate target action w = action w) := by
  unfold iterate
  cases action w with
  | ok v w' => exact .inr ⟨by simp, rfl⟩
  | error exit w' =>
      match exit with
      | .jump (.breakTo (some goal) v) =>
          by_cases hgoal : goal = target
          · subst hgoal
            exact .inl ⟨v, w', rfl, if_pos rfl⟩
          · exact .inr ⟨by simp [hgoal], if_neg hgoal⟩
      | .jump (.breakTo none v) | .jump (.raised x) | .panic p | .exhausted =>
          exact .inr ⟨by simp, rfl⟩

/-- What does not break to an iteration is not stopped by it. -/
theorem iterate_of_otherExit {target : Nat} {action : Eval σ Value} {exit : Exit} {w w' : World σ}
    (h : action w = .error exit w') (hexit : ∀ v, exit ≠ .jump (.breakTo (some target) v)) :
    iterate target action w = .error exit w' := by
  rcases iterate_cases target action w with ⟨v, w₁, hbreak, -⟩ | ⟨-, hsame⟩
  · rw [h] at hbreak
    cases hbreak
    exact absurd rfl (hexit v)
  · rw [hsame, h]

/-- An exception goes through an iteration. -/
theorem iterate_of_raised {target : Nat} {action : Eval σ Value} {exception : Value}
    {w w' : World σ} (h : action w = .error (.jump (.raised exception)) w') :
    iterate target action w = .error (.jump (.raised exception)) w' :=
  iterate_of_otherExit h (by simp)

/-- A break that comes out of an iteration came to it, and was not for it. -/
theorem iterate_eq_break {target : Nat} {goal : Option Nat} {action : Eval σ Value} {v : Value}
    {w w' : World σ} (h : iterate target action w = .error (.jump (.breakTo goal v)) w') :
    action w = .error (.jump (.breakTo goal v)) w' ∧ goal ≠ some target := by
  rcases iterate_cases target action w with ⟨value, w₁, -, hvalue⟩ | ⟨hother, hsame⟩
  · rw [hvalue] at h
    cases h
  · rw [hsame] at h
    refine ⟨h, ?_⟩
    rintro rfl
    exact hother v w' h

end Eval

namespace Eval

variable {ε : Type}

/-- An operation in two steps goes on to the second only with a value of the first. -/
theorem run_bind_apply (x : ExceptT ε (Eval σ) α) (f : α → ExceptT ε (Eval σ) β) (w : World σ) :
    (x >>= f).run w =
      match x.run w with
      | .ok (.ok a) w' => (f a).run w'
      | .ok (.error failure) w' => .ok (.error failure) w'
      | .error exit w' => .error exit w' := by
  rw [ExceptT.run_bind, bind_apply]
  cases x.run w with
  | ok result w' => cases result <;> rfl
  | error exit w' => rfl

/-- A run as the first step of an operation. -/
theorem run_lift_bind_apply (x : Eval σ α) (f : α → ExceptT ε (Eval σ) β) (w : World σ) :
    (ExceptT.lift x >>= f).run w = (x >>= fun a => (f a).run) w := by
  rw [ExceptT.run_bind, ExceptT.run_lift, bind_map_left]

@[simp] theorem run_get_bind_apply (f : World σ → ExceptT ε (Eval σ) β) (w : World σ) :
    ((get : ExceptT ε (Eval σ) (World σ)) >>= f).run w = (f w).run w := rfl

@[simp] theorem run_modify_bind_apply (g : World σ → World σ) (f : PUnit → ExceptT ε (Eval σ) β)
    (w : World σ) :
    ((modify g : ExceptT ε (Eval σ) PUnit) >>= f).run w = (f ⟨⟩).run (g w) := rfl

@[simp] theorem run_liftM_ok_bind_apply (a : α) (f : α → ExceptT ε (Eval σ) β) (w : World σ) :
    ((liftM (Except.ok a : Except ε α) : ExceptT ε (Eval σ) α) >>= f).run w = (f a).run w := rfl

@[simp] theorem run_pure_apply (a : α) (w : World σ) :
    (pure a : ExceptT ε (Eval σ) α).run w = .ok (.ok a) w := rfl

end Eval

namespace Vm

open Eval

variable (r : Reentry σ)

/-- A task behind the barrier, as a step of an operation. -/
theorem guarded_run_apply (action : Eval σ α) (w : World σ) :
    (guarded action).run w =
      match action w with
      | .ok a w' => .ok (.ok a) w'
      | .error (.jump jump) w' => .ok (.error (.exited jump)) (w'.restored w)
      | .error exit w' => .error exit w' := by
  unfold guarded
  rw [run_lift_bind_apply, bind_apply, protect_apply]
  cases action w with
  | ok a w' => rfl
  | error exit w' => cases exit <;> rfl

/-- An operation has its value, or the error it was refused with, or the error its jump surfaces
as. -/
theorem settled_apply (operation : Checked σ α) (w : World σ) :
    settled r operation w =
      match operation.run w with
      | .ok (.ok a) w' => .ok (.ok a) w'
      | .ok (.error (.refused error)) w' => .ok (.error error) w'
      | .ok (.error (.exited jump)) w' => (Except.error <$> surface r jump) w'
      | .error exit w' => .error exit w' := by
  unfold settled
  rw [bind_apply]
  cases operation.run w with
  | error exit w' => rfl
  | ok result w' =>
      match result with
      | .ok a => rfl
      | .error (.refused error) => rfl
      | .error (.exited jump) => simp only [map_eq_pure_bind]

/-- An operation goes on to its second part only with a value of the first. -/
theorem settled_bind_apply {β : Type} (first : Checked σ β) (rest : β → Checked σ α) (w : World σ) :
    settled r (first >>= rest) w =
      match first.run w with
      | .ok (.ok b) w' => settled r (rest b) w'
      | .ok (.error (.refused error)) w' => .ok (.error error) w'
      | .ok (.error (.exited jump)) w' => (Except.error <$> surface r jump) w'
      | .error exit w' => .error exit w' := by
  rw [settled_apply, run_bind_apply]
  cases first.run w with
  | error exit w₁ => rfl
  | ok result w₁ =>
      match result with
      | .ok b => exact (settled_apply r (rest b) w₁).symm
      | .error (.refused error) => rfl
      | .error (.exited jump) => rfl

/-- An operation that is a task alone has the value of the task, or the error its jump surfaces
as. -/
theorem settled_guarded_apply (action : Eval σ α) (w : World σ) :
    settled r (guarded action) w =
      match action w with
      | .ok a w' => .ok (.ok a) w'
      | .error (.jump jump) w' => (Except.error <$> surface r jump) (w'.restored w)
      | .error exit w' => .error exit w' := by
  rw [settled_apply, guarded_run_apply]
  cases action w with
  | ok a w' => rfl
  | error exit w' => cases exit <;> rfl

/-- An operation whose first task gives its result goes on with it. -/
theorem settled_guarded_bind_of_ok {β : Type} {take : Eval σ α} {a : α} {w w' : World σ}
    (htaken : take w = .ok a w') (rest : α → Checked σ β) :
    settled r (guarded take >>= rest) w = settled r (rest a) w' := by
  rw [settled_bind_apply, guarded_run_apply, htaken]

/-- What surfaces is an error. -/
theorem surfaced_ne_ok {jump : Jump} {w w' : World σ} {a : α} :
    (Except.error <$> surface r jump) w ≠ .ok (.ok a) w' := by
  intro h
  rw [map_eq_pure_bind] at h
  obtain ⟨error, w₁, _, h⟩ := bind_ok_iff.mp h
  cases h

/-- The answer is the error that a jump surfaces as. -/
def Surfaces (answer : Eval σ (Except Error α)) (w : World σ) : Prop :=
  ∃ jump w₁, answer w = (Except.error <$> surface r jump) w₁

/-- A task has a value as an operation exactly if it has it by itself. -/
theorem settled_guarded_ok_iff {action : Eval σ α} {a : α} {w w' : World σ} :
    settled r (guarded action) w = .ok (.ok a) w' ↔ action w = .ok a w' := by
  rw [settled_guarded_apply]
  cases action w with
  | ok b w₁ => simp
  | error exit w₁ =>
      cases exit with
      | jump jump => simp [surfaced_ne_ok]
      | panic p => simp
      | exhausted => simp

/-- A task that terminates without a value surfaces. -/
theorem surfaces_settled_guarded {action : Eval σ α} {w : World σ}
    (hterminates : action.Terminates w) (hnone : ∀ a w', action w ≠ .ok a w') :
    Surfaces r (settled r (guarded action)) w := by
  unfold Surfaces
  rw [settled_guarded_apply]
  cases hrun : action w with
  | ok a w₁ => exact absurd hrun (hnone a w₁)
  | error exit w₁ =>
      obtain ⟨jump, rfl⟩ := hterminates exit w₁ hrun
      exact ⟨jump, w₁.restored w, rfl⟩

/-- While the interpreter is up there is nothing to bring up. -/
theorem ensureSetup_run_of_up {w : World σ} (hup : w.state = .up) :
    (ensureSetup : Checked σ Unit).run w = .ok (.ok ()) w := by
  unfold ensureSetup
  rw [run_bind_apply]
  unfold setup
  rw [run_get_bind_apply, hup]
  rfl

/-- An operation that needs nothing but an interpreter that is up goes on at once if it is. -/
theorem settled_ensureSetup_of_up {w : World σ} (hup : w.state = .up) (operation : Checked σ α) :
    settled r (ensureSetup >>= fun _ => operation) w = settled r operation w := by
  rw [settled_bind_apply, ensureSetup_run_of_up hup]

end Vm

end EmbeddedRuby
