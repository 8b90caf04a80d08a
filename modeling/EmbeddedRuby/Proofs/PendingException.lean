import EmbeddedRuby.Proofs.Follows.Programs
import EmbeddedRuby.Proofs.CoreClasses

/-!
# The pending exception

What the host is told of a jump depends on whether an exception is pending: if none is, the jump was
a break.  So it matters that no exception stays pending after it was dealt with, and that the one
that is pending is the one that was raised.

`Course.pending` says so of every run that begins with nothing pending, as long as the host uses
operations only: with an exception it ends with that one pending, and otherwise with none.  That the
two can be told apart rests on what holds in every world that a program can lead to
(`World.InOrder`): nil, which stands for no exception, is none, so it is never raised
(`Course.raised_ne_nil`).
-/

namespace EmbeddedRuby

variable {σ : Type} {P : Probe → Prop}

/-! ### What holds in every world -/

/-- What holds in every world that a program leads to from a fresh one: the core classes stand, and
the interpreter could not be brought up for no other reason than the host's side has. -/
structure World.InOrder (w : World σ) : Prop where
  core : w.machine.heap.CoreStanding
  failure : ∀ error, w.state = .failed error → error.IsRefusal

/-- A fresh world is in order, whatever the host remembers. -/
theorem World.inOrder_fresh (memory : σ) : ({ memory } : World σ).InOrder :=
  ⟨Machine.boot_coreStanding, by simp⟩

/-- A world without anything of the host's is in order. -/
theorem World.inOrder_bare : World.bare.InOrder :=
  ⟨Machine.coreSlots_coreStanding, by simp [bare]⟩

/-- A world stays in order with the same objects and the same state. -/
theorem World.InOrder.of_eq {w w' : World σ} (h : w.InOrder)
    (hheap : w'.machine.heap = w.machine.heap) (hstate : w'.state = w.state) : w'.InOrder := by
  refine ⟨?_, ?_⟩
  · rw [hheap]
    exact h.core
  · rw [hstate]
    exact h.failure

/-- An interpreter that could not be brought up has refused, or was given a bad argument. -/
theorem Vm.isRefusal_of_start {info : BootInfo} {w w' : World σ} {error : Error}
    (h : (Vm.start info).run w = .ok (.error error) w') : error.IsRefusal := by
  generalize hresult : (Except.error error : Except Error Unit) = result at h
  cases (Vm.start_cases h).2 with
  | refused =>
      cases hresult
      trivial
  | badArguments hcode harguments =>
      cases hresult
      unfold BootInfo.arguments at harguments
      split at harguments
      · cases harguments
        trivial
      · cases harguments
  | ran =>
      split at hresult
      · cases hresult
      · cases hresult
        trivial

/-- A step lets the interpreter fail for a reason that the host's side has, or not at all. -/
theorem World.Step.failure {w w' : World σ} (h : w.Step w')
    (hw : ∀ error, w.state = .failed error → error.IsRefusal) :
    ∀ error, w'.state = .failed error → error.IsRefusal := by
  cases h with
  | setup hunknown hstart =>
      rename_i result
      intro error herror
      cases result with
      | ok _ => cases herror
      | error found =>
          obtain rfl : found = error := by
            simpa [World.stateAfter] using herror
          exact Vm.isRefusal_of_start hstart
  | cleanUp hup => exact fun error herror => by cases herror
  | _ => exact hw

/-- A run lets the interpreter fail for a reason that the host's side has, or not at all. -/
theorem Course.failure {script : Option Nat} {w w' : World σ} {ending : Ending}
    (h : Course P script w ending w')
    (hw : ∀ error, w.state = .failed error → error.IsRefusal) :
    ∀ error, w'.state = .failed error → error.IsRefusal := by
  induction h with
  | done | raise | raiseObject | breakOut | crash | exhausted | setLine | openBody | closeBody
  | addProc => exact hw
  | step h => exact h.failure hw
  | @register w kind run => cases kind <;> exact hw
  | probe hprobe h => cases h <;> exact hw
  | seq first rest ih₁ ih₂ => exact ih₂ (ih₁ hw)
  | block inner ih | blockLeft inner hexit ih | script inner ih | scriptLeft inner ih
  | iterate inner ih | callback inner ih | settled inner hparked ih | resumed inner hparked ih
  | attempt hprobe inner ih | ordinary inner ih | caught inner ih => exact ih hw
  | @quiet w w₁ jump inner ih =>
      obtain ⟨panicLog, hoverlook⟩ := (w₁.restored w).withoutPending.overlook_eq
      rw [hoverlook]
      exact ih hw

/-- A run leaves a world in order that was. -/
theorem Course.inOrder {script : Option Nat} {w w' : World σ} {ending : Ending}
    (h : Course P script w ending w') (hw : w.InOrder) : w'.InOrder :=
  ⟨hw.core.of_evolves h.evolves, h.failure hw.failure⟩

/-- A program leads from a world in order to one in order, whatever it does. -/
theorem Program.inOrder_run (fuel : Nat) {role : Role} (program : Program σ role) {w : World σ}
    (hw : w.InOrder) : (Eval.Outcome.world (program.run (.ofFuel fuel) w)).InOrder := by
  have hcircle := Reentry.follows_ofFuel AnyProbe fuel (σ := σ)
  exact (program.settles_run hcircle program.uses_anyProbe w w.hostCode_anyProbe).follows.inOrder hw

/-! ### The pending exception -/

/-- What is pending when a run has ended that began with nothing pending. -/
def Ending.pending : Ending → Value
  | .exit (.jump (.raised exception)) => exception
  | _ => Value.nil

/-- The word of a slot is not the word of nil. -/
theorem Value.ofSlot_ne_nil (index : Nat) : Value.ofSlot index ≠ Value.nil := by
  intro h
  have hword := congrArg (fun v : Value => v.word.toNat % 8) h
  simp only [Value.ofSlot, Value.nil, Value.ofWord, Value.heapBase, UInt64.toNat_ofNat'] at hword
  omega

/-- No step of the interpreter touches the pending exception. -/
theorem Machine.Step.errinfo_eq {m m' : Machine} (h : m.Step m') : m'.errinfo = m.errinfo := by
  cases h with
  | storeInHash hash key value =>
      unfold Machine.storeInHash
      split <;> rfl
  | _ => rfl

/-- No other step of a run touches it either. -/
theorem World.Step.errinfo_eq {w w' : World σ} (h : w.Step w') :
    w'.machine.errinfo = w.machine.errinfo := by
  cases h with
  | machine h => exact h.errinfo_eq
  | setup hunknown hstart =>
      cases (Vm.start_cases hstart).2 with
      | refused | badArguments => rfl
      | ran =>
          simp only [Machine.options]
          split <;> rfl
  | _ => rfl

/-- What comes out of a run as an exception is not nil. -/
theorem Course.raised_ne_nil {script : Option Nat} {w w' : World σ} {exception : Value}
    (h : Course P script w (.raised exception) w') (hw : w.InOrder) : exception ≠ Value.nil := by
  generalize hending : Ending.raised exception = ending at h
  induction h with
  | raise w fault =>
      cases hending
      exact Value.ofSlot_ne_nil _
  | @raiseObject w raised hraised =>
      cases hending
      rintro rfl
      rw [hw.core.not_isKindOf_nil] at hraised
      cases hraised
  | callback inner ih =>
      cases hending
      exact Value.ofSlot_ne_nil _
  | seq first rest ih₁ ih₂ => exact ih₂ (first.inOrder hw) hending
  | blockLeft inner hexit ih | scriptLeft inner ih => exact ih (hw.of_eq rfl rfl) hending
  | ordinary inner ih => exact ih hw hending
  | _ => cases hending

/-- A run that begins with nothing pending ends with nothing pending, unless an exception has come
out; that one is pending then. -/
theorem Course.pending {script : Option Nat} {w w' : World σ} {ending : Ending}
    (h : Course NoProbes script w ending w') (hnil : w.machine.errinfo = Value.nil) :
    w'.machine.errinfo = ending.pending := by
  induction h with
  | done | breakOut | crash | exhausted | openBody | closeBody | addProc => exact hnil
  | setLine w line =>
      simp only [Machine.setLine]
      split <;> exact hnil
  | step h => exact h.errinfo_eq.trans hnil
  | @register w kind run =>
      rw [World.setCallback_machine]
      exact hnil
  | probe hprobe | attempt hprobe => exact hprobe.elim
  | raise | raiseObject | callback | settled | resumed => rfl
  | seq first rest ih₁ ih₂ => exact ih₂ (ih₁ hnil)
  | block inner ih | blockLeft inner hexit ih | script inner ih | scriptLeft inner ih
  | iterate inner ih | caught inner ih | ordinary inner ih => exact ih hnil
  | quiet inner ih =>
      rw [World.overlook_machine]
      rfl

end EmbeddedRuby
