import EmbeddedRuby.Vm.Run

/-!
# Taking runs apart

Everything that runs is an `Eval`: from a world to a value and a world, or to an exit and a world.
This module says how such a run is taken apart, so that the proofs about the interpreter never open
the monad.

The lemmas come in two shapes.  The *equations* move one step of a run forward and are tagged for
`simp`: reading the machine, changing it, raising.  The *inversions* take a run that has ended and
say how its first part ended: `bind_ok_iff` for a run that gave a value, and `bind_error_iff` for
one that was left.
-/

namespace EmbeddedRuby

namespace Eval

variable {σ α β : Type}

/-- Abbreviation for the result of a run. -/
abbrev Outcome (σ α : Type) := EStateM.Result Exit (World σ) α

/-- The second part of a run starts where the first has ended. -/
theorem bind_apply (x : Eval σ α) (f : α → Eval σ β) (w : World σ) :
    (x >>= f) w =
      match x w with
      | .ok a w' => f a w'
      | .error exit w' => .error exit w' := by
  show EStateM.bind x f w = _
  unfold EStateM.bind
  cases x w <;> rfl

/-- A run in two parts that gives a value has a first part that gives one. -/
theorem bind_ok_iff {x : Eval σ α} {f : α → Eval σ β} {w w' : World σ} {b : β} :
    (x >>= f) w = .ok b w' ↔ ∃ a w₁, x w = .ok a w₁ ∧ f a w₁ = .ok b w' := by
  rw [bind_apply]
  cases hx : x w with
  | ok a w₁ =>
      constructor
      · intro h
        exact ⟨a, w₁, rfl, h⟩
      · rintro ⟨a', w₂, h, hf⟩
        cases h
        exact hf
  | error exit w₁ =>
      constructor
      · intro h
        cases h
      · rintro ⟨_, _, h, _⟩
        cases h

/-- A run in two parts that is left is left in the first part or in the second. -/
theorem bind_error_iff {x : Eval σ α} {f : α → Eval σ β} {w w' : World σ} {exit : Exit} :
    (x >>= f) w = .error exit w' ↔
      x w = .error exit w' ∨ ∃ a w₁, x w = .ok a w₁ ∧ f a w₁ = .error exit w' := by
  rw [bind_apply]
  cases hx : x w with
  | ok a w₁ =>
      constructor
      · intro h
        exact .inr ⟨a, w₁, rfl, h⟩
      · rintro (h | ⟨a', w₂, h, hf⟩)
        · cases h
        · cases h
          exact hf
  | error found w₁ =>
      constructor
      · intro h
        cases h
        exact .inl rfl
      · rintro (h | ⟨_, _, h, _⟩)
        · cases h
          rfl
        · cases h

@[simp] theorem pure_apply (a : α) (w : World σ) : (pure a : Eval σ α) w = .ok a w := rfl

@[simp] theorem get_bind_apply (f : World σ → Eval σ β) (w : World σ) :
    ((get : Eval σ (World σ)) >>= f) w = f w w := rfl

@[simp] theorem modify_bind_apply (f : World σ → World σ) (g : PUnit → Eval σ β) (w : World σ) :
    ((modify f : Eval σ PUnit) >>= g) w = g ⟨⟩ (f w) := rfl

@[simp] theorem machine_bind_apply (f : Machine → Eval σ β) (w : World σ) :
    (machine >>= f) w = f w.machine w := rfl

@[simp] theorem onMachine_apply (f : Machine → α × Machine) (w : World σ) :
    onMachine f w = .ok (f w.machine).1 { w with machine := (f w.machine).2 } := rfl

@[simp] theorem onMachine_bind_apply (f : Machine → α × Machine) (g : α → Eval σ β)
    (w : World σ) :
    (onMachine f >>= g) w = g (f w.machine).1 { w with machine := (f w.machine).2 } := rfl

@[simp] theorem changeMachine_bind_apply (f : Machine → Machine) (g : PUnit → Eval σ β)
    (w : World σ) :
    (changeMachine f >>= g) w = g ⟨⟩ { w with machine := f w.machine } := rfl

/-- A method that has as many arguments as it takes goes on. -/
theorem checkArity_bind_apply {call : Call σ} {least most : Nat} (hleast : least ≤ call.args.length)
    (hmost : call.args.length ≤ most) (f : PUnit → Eval σ β) (w : World σ) :
    (checkArity call least most >>= f) w = f ⟨⟩ w := by
  unfold checkArity
  dsimp only
  rw [if_neg (by omega)]
  rfl

/-- Raising never gives a value. -/
theorem raise_ne_ok {fault : Fault} {w w' : World σ} {a : α} :
    raise fault w ≠ .ok a w' := by
  intro h
  cases h

theorem raiseObject_ne_ok {exception : Value} {w w' : World σ} {a : α} :
    raiseObject exception w ≠ .ok a w' := by
  intro h
  unfold raiseObject at h
  rw [machine_bind_apply] at h
  split at h <;> cases h

end Eval

end EmbeddedRuby
