import EmbeddedRuby.Proofs.Course

/-!
# What surfacing does

An operation that a jump has come out of ends with `Vm.surface`.  Its steps are taken apart here: a
panic that waits goes on at once (`surface_apply`); otherwise the error is made, for which the
exception is described by quiet tasks (`quietly_run_apply`).  None of them lets a jump out
(`noJump_surface`), so a jump that surfaces is an error as soon as the surfacing ends
(`Surfaces.exists_error`), unless a panic waits where it comes out (`Surfaces.fails`).
-/

namespace EmbeddedRuby

namespace Vm

open Eval

variable {σ α β : Type} {r : Reentry σ}

/-- A part of a description goes on only with a result of the first step. -/
theorem option_run_bind_apply (x : OptionT (Eval σ) α) (f : α → OptionT (Eval σ) β) (w : World σ) :
    (x >>= f).run w =
      match x.run w with
      | .ok (some a) w' => (f a).run w'
      | .ok none w' => .ok none w'
      | .error exit w' => .error exit w' := by
  change ((x.run : Eval σ (Option α)) >>= fun
    | some a => (f a).run
    | none => pure none) w = _
  rw [bind_apply]
  cases x.run w with
  | ok result w' => cases result <;> rfl
  | error exit w' => rfl

/-- A quiet task gives its result, or nothing, and then nothing is pending. -/
theorem quietly_run_apply (task : Task) (w : World σ) :
    (quietly r task).run w =
      match perform r task w with
      | .ok a w' => .ok (some a) w'
      | .error (.jump _) w' => .ok none (w'.restored w).withoutPending.overlook
      | .error exit w' => .error exit w' := by
  unfold quietly
  rw [option_run_bind_apply, OptionT.run_lift, bind_apply, protect_apply]
  cases perform r task w with
  | ok a w' => rfl
  | error exit w' => cases exit <;> rfl

/-- The number of a name, which the host knows from then on. -/
theorem quietName_run_apply (name : String) (w : World σ) :
    (quietName r name).run w =
      match w.ids.get? name with
      | some id => .ok (some id) w
      | none => .ok (some (w.machine.intern name).1) (w.learn name) := by
  unfold quietName
  change (match w.ids.get? name with
      | some id => (pure id : OptionT (Eval σ) SymbolId)
      | none => _).run w = _
  cases w.ids.get? name with
  | some id => rfl
  | none => rfl

/-- Going on with the panic that waits, if there is one. -/
theorem resumeParked_apply (w : World σ) :
    resumeParked w =
      match w.parked with
      | none => .ok () w
      | some p => .error (.panic p) (w.resume p) := by
  unfold resumeParked
  rw [get_bind_apply]
  cases w.parked <;> rfl

/-- Clearing what is pending does nothing where nothing is. -/
theorem withoutPending_of_nil {w : World σ} (hnil : w.machine.errinfo = Value.nil) :
    w.withoutPending = w := by
  unfold World.withoutPending World.onMachine
  rw [← hnil]

/-- Surfacing clears what is pending.  Then a panic that waits goes on, and otherwise an error is
made: of the exception if one was pending, and of the tag of the jump if not. -/
theorem surface_apply (jump : Jump) (w : World σ) :
    surface r jump w =
      match w.parked with
      | some p => .error (.panic p) (w.withoutPending.resume p)
      | none =>
        if w.machine.errinfo = Value.nil then record (.jump jump.tag) w.withoutPending
        else (report r w.machine.errinfo >>= fun found => record (.exception found))
          w.withoutPending := by
  have hopen : surface r jump w =
      (if w.machine.errinfo = Value.nil then resumeParked >>= fun _ => record (.jump jump.tag)
        else setPending Value.nil >>= fun _ => resumeParked >>= fun _ =>
          report r w.machine.errinfo >>= fun found => record (.exception found) :
        Eval σ Error) w := rfl
  rw [hopen]
  by_cases hnil : w.machine.errinfo = Value.nil
  · rw [if_pos hnil, if_pos hnil, withoutPending_of_nil hnil, bind_apply, resumeParked_apply]
    cases w.parked <;> rfl
  · rw [if_neg hnil, if_neg hnil]
    change (resumeParked >>= _) w.withoutPending = _
    have hparked : w.withoutPending.parked = w.parked := rfl
    rw [bind_apply, resumeParked_apply, hparked]
    cases w.parked <;> rfl

/-! ### No jump comes out of it -/

/-- No jump comes out of two parts of a description if none comes out of each. -/
theorem noJump_option_bind {x : OptionT (Eval σ) α} {f : α → OptionT (Eval σ) β}
    (hx : x.run.NoJump) (hf : ∀ a, (f a).run.NoJump) : (x >>= f).run.NoJump :=
  hx.bind fun
    | some a => hf a
    | none => noJump_pure none

/-- A quiet task stops its jump. -/
theorem noJump_quietly (task : Task) : (quietly r task).run.NoJump := by
  intro w jump w' h
  rw [quietly_run_apply] at h
  cases hrun : perform r task w with
  | ok a w₁ =>
      rw [hrun] at h
      cases h
  | error exit w₁ =>
      rw [hrun] at h
      cases exit <;> cases h

/-- Asking for a name quietly stops its jump. -/
theorem noJump_quietName (name : String) : (quietName r name).run.NoJump := by
  intro w jump w' h
  rw [quietName_run_apply] at h
  cases hid : w.ids.get? name <;> rw [hid] at h <;> cases h

/-- No jump comes out of reading a backtrace. -/
theorem noJump_backtraceLines (exception : Value) : (backtraceLines r exception).run.NoJump := by
  unfold backtraceLines
  refine noJump_option_bind (noJump_quietName "backtrace") fun backtrace => ?_
  refine noJump_option_bind (noJump_quietName "join") fun join => ?_
  refine noJump_option_bind (noJump_quietly (.call exception backtrace [] false)) ?_
  intro lines
  have hlook : (OptionT.lift machine : OptionT (Eval σ) Machine).run.NoJump := by
    intro w jump w' h
    cases h
  have hnewline : (OptionT.lift (newText "\n") : OptionT (Eval σ) Value).run.NoJump := by
    intro w jump w' h
    cases h
  refine noJump_option_bind hlook fun m => ?_
  split
  · refine noJump_option_bind hnewline fun separator => ?_
    refine noJump_option_bind (noJump_quietly (.call lines join [separator] false)) ?_
    intro joined
    exact noJump_option_bind (noJump_quietly (.stringBytes joined)) fun _ => noJump_pure _
  · exact noJump_pure none

/-- No jump comes out of describing an exception. -/
theorem noJump_report (exception : Value) : (report r exception).NoJump := by
  have hshown : (shown r exception).run.NoJump :=
    noJump_option_bind (noJump_quietly (.inspectBytes exception)) fun _ => noJump_pure _
  exact hshown.bind fun _ => (noJump_backtraceLines exception).bind fun _ => noJump_pure _

/-- No jump comes out of the making of an error. -/
theorem noJump_surface (jump : Jump) : (surface r jump).NoJump := by
  intro w other w' h
  rw [surface_apply] at h
  cases hparked : w.parked with
  | some p =>
      rw [hparked] at h
      cases h
  | none =>
      rw [hparked] at h
      simp only at h
      split at h
      · cases h
      · rcases bind_error_iff.mp h with h | ⟨found, w₁, -, h⟩
        · exact noJump_report _ _ _ _ h
        · cases h

/-- What surfaces is an error, if it comes to an end. -/
theorem Surfaces.exists_error {answer : Eval σ (Except Error α)} {w : World σ}
    (h : Surfaces r answer w) (hends : answer.Terminates w) :
    ∃ error w', answer w = .ok (.error error) w' := by
  obtain ⟨jump, w₁, h⟩ := h
  have hmap : (Except.error <$> surface r jump : Eval σ (Except Error α)).NoJump := by
    rw [map_eq_pure_bind]
    exact (noJump_surface jump).bind fun _ => noJump_pure _
  have hterminates : (Except.error <$> surface r jump : Eval σ (Except Error α)).Terminates w₁ := by
    intro exit w' hexit
    exact hends exit w' (h.trans hexit)
  obtain ⟨result, w', hresult⟩ := hmap.exists_value hterminates
  rw [map_eq_pure_bind] at hresult
  obtain ⟨error, w₂, hsurface, hvalue⟩ := bind_ok_iff.mp hresult
  cases hvalue
  refine ⟨error, w', h.trans ?_⟩
  rw [map_eq_pure_bind]
  exact bind_ok_iff.mpr ⟨error, _, hsurface, rfl⟩

/-- The answer is what a jump surfaces as.  A panic that waits where the jump comes out goes on; if
none does, the answer is an error as soon as the exception has been described. -/
def Fails (r : Reentry σ) (answer : Eval σ (Except Error α)) (w : World σ) : Prop :=
  ∃ jump w₁, answer w = (Except.error <$> surface r jump) w₁ ∧
    match w₁.parked with
    | some p => answer w = .error (.panic p) (w₁.withoutPending.resume p)
    | none => answer.Terminates w → ∃ error w', answer w = .ok (.error error) w'

/-- What surfaces as an error fails. -/
theorem Surfaces.fails {answer : Eval σ (Except Error α)} {w : World σ}
    (h : Surfaces r answer w) : Fails r answer w := by
  have herror := h.exists_error
  obtain ⟨jump, w₁, hanswer⟩ := h
  refine ⟨jump, w₁, hanswer, ?_⟩
  cases hparked : w₁.parked with
  | none => exact herror
  | some p =>
      have hsurface : surface r jump w₁ = .error (.panic p) (w₁.withoutPending.resume p) := by
        rw [surface_apply, hparked]
      rw [map_eq_pure_bind] at hanswer
      exact hanswer.trans (bind_error_iff.mpr (.inl hsurface))

/-- No panic waits if the answer comes to an end. -/
theorem Fails.exists_error {answer : Eval σ (Except Error α)} {w : World σ}
    (h : Fails r answer w) (hends : answer.Terminates w) :
    ∃ error w', answer w = .ok (.error error) w' := by
  obtain ⟨jump, w₁, -, hanswer⟩ := h
  cases hparked : w₁.parked with
  | none =>
      rw [hparked] at hanswer
      exact hanswer hends
  | some p =>
      rw [hparked] at hanswer
      obtain ⟨other, hother⟩ := hends _ _ hanswer
      cases hother

end Vm

end EmbeddedRuby
