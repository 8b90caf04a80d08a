import EmbeddedRuby.Proofs.Growth
import EmbeddedRuby.Proofs.OwnMethods
import EmbeddedRuby.Proofs.Run

/-!
# What a run comes to

A method that makes an integer gives an integer object or raises an exception of the interpreter's
own.  `Eval.HasOutcome` says both with one outcome: the number, or the class of the exception.  A run
comes to one outcome at most, so whoever knows the outcome knows exactly when the run gives a number
(`HasOutcome.gives_iff`), when it raises (`HasOutcome.raises_iff`), and that it does nothing else.

A new exception needs an object for its message, one for each frame of the backtrace, one for the
backtrace and one for itself; so much room is assumed (`World.RoomToRaise`).
-/

namespace EmbeddedRuby

variable {σ α : Type}

/-- There is room in the heap for one more exception, or for one more object of another kind. -/
def World.RoomToRaise (w : World σ) : Prop :=
  w.machine.heap.HasRoom (w.machine.frames.length + 3)

instance (w : World σ) : Decidable w.RoomToRaise := by
  unfold World.RoomToRaise
  infer_instance

theorem World.RoomToRaise.addressable {w : World σ} (hroom : w.RoomToRaise) :
    w.machine.heap.Addressable := by
  have hone : w.machine.heap.HasRoom (w.machine.frames.length + 2 + 1) := hroom
  exact hone.addressable

/-- The number in an integer object. -/
theorem Number.of?_of_int? {h : Heap} {v : Value} {n : Int} (hn : h.int? v = some n) :
    Number.of? h v = some (.int n) := by
  simp [Number.of?, hn]

namespace Eval

variable {action : Eval σ Value} {w : World σ}

/-- The run gives an integer object with this number. -/
def GivesInteger (action : Eval σ Value) (w : World σ) (n : Int) : Prop :=
  ∃ v w', action w = .ok v w' ∧ w'.machine.heap.IsInteger v ∧ w'.machine.heap.int? v = some n

/-- The run is left by an exception of this very class. -/
def Raises (action : Eval σ α) (w : World σ) (cls : CoreClass) : Prop :=
  ∃ exception w', action w = .error (.jump (.raised exception)) w' ∧
    w'.machine.heap.classOf exception = cls.value

/-- The run is left by a panic. -/
def Panics (action : Eval σ α) (w : World σ) : Prop :=
  ∃ panic w', action w = .error (.panic panic) w'

/-- The run gives the number of the outcome, or raises the exception of the outcome. -/
def HasOutcome (action : Eval σ Value) (w : World σ) : Except CoreClass Int → Prop
  | .ok n => GivesInteger action w n
  | .error cls => Raises action w cls

/-- A new exception is of the class of its fault. -/
theorem raises_raise (hroom : w.RoomToRaise) (fault : Fault) :
    Raises (raise fault : Eval σ α) w fault.cls := by
  have hfresh : w.machine.heap.HasRoom (0 + w.machine.frames.length + 3) := by
    rw [Nat.zero_add]
    exact hroom
  obtain ⟨⟨message, trace, hexception⟩, -⟩ :=
    Machine.newException_spec (m := w.machine) fault hfresh
  exact ⟨_, _, rfl, hexception.classOf⟩

/-- A new integer is an integer with its number. -/
theorem givesInteger_newInteger (hroom : w.machine.heap.Addressable) (n : Int) :
    GivesInteger (onMachine fun m => m.newInteger n) w n := by
  obtain ⟨hinteger, hnumber⟩ := Machine.newInteger_spec w.machine n hroom
  exact ⟨_, _, rfl, hinteger, hnumber⟩

/-- What an equal run comes to. -/
theorem HasOutcome.congr {other : Eval σ Value} {outcome : Except CoreClass Int}
    (h : other.HasOutcome w outcome) (heq : action w = other w) : action.HasOutcome w outcome := by
  cases outcome with
  | ok n =>
      obtain ⟨v, w', hrun, hv⟩ := h
      exact ⟨v, w', heq.trans hrun, hv⟩
  | error cls =>
      obtain ⟨exception, w', hrun, hcls⟩ := h
      exact ⟨exception, w', heq.trans hrun, hcls⟩

namespace HasOutcome

variable {outcome : Except CoreClass Int}

/-- A run comes to one outcome at most. -/
theorem unique {other : Except CoreClass Int} (h : action.HasOutcome w outcome)
    (hother : action.HasOutcome w other) : outcome = other := by
  cases outcome with
  | ok n =>
      obtain ⟨v, w₁, hrun, -, hn⟩ := h
      cases other with
      | ok k =>
          obtain ⟨v', w₂, hrun', -, hk⟩ := hother
          cases hrun.symm.trans hrun'
          cases hn.symm.trans hk
          rfl
      | error cls =>
          obtain ⟨exception, w₂, hrun', -⟩ := hother
          cases hrun.symm.trans hrun'
  | error cls =>
      obtain ⟨exception, w₁, hrun, hcls⟩ := h
      cases other with
      | ok k =>
          obtain ⟨v', w₂, hrun', -⟩ := hother
          cases hrun.symm.trans hrun'
      | error cls' =>
          obtain ⟨exception', w₂, hrun', hcls'⟩ := hother
          cases hrun.symm.trans hrun'
          rw [CoreClass.value_inj.mp (hcls.symm.trans hcls')]

/-- A number is given exactly if it is the outcome. -/
theorem gives_iff (h : action.HasOutcome w outcome) {n : Int} :
    action.GivesInteger w n ↔ outcome = .ok n := by
  constructor
  · intro hgives
    have hother : action.HasOutcome w (.ok n) := hgives
    exact h.unique hother
  · rintro rfl
    exact h

/-- An exception of a class is raised exactly if the class is the outcome. -/
theorem raises_iff (h : action.HasOutcome w outcome) {cls : CoreClass} :
    action.Raises w cls ↔ outcome = .error cls := by
  constructor
  · intro hraises
    have hother : action.HasOutcome w (.error cls) := hraises
    exact h.unique hother
  · rintro rfl
    exact h

/-- What comes to an outcome does not panic. -/
theorem not_panics (h : action.HasOutcome w outcome) : ¬action.Panics w := by
  rintro ⟨panic, w', hrun⟩
  cases outcome with
  | ok k =>
      obtain ⟨v, w'', hrun', -⟩ := h
      cases hrun.symm.trans hrun'
  | error cls =>
      obtain ⟨exception, w'', hrun', -⟩ := h
      cases hrun.symm.trans hrun'

end HasOutcome

end Eval

end EmbeddedRuby
