import EmbeddedRuby.Proofs.Careful.Operations

/-!
# Careful programs

A program of the host's that makes up no handles is careful, whatever it asks for and whatever code it
hands over (`Program.careful_run`), as long as the calls below it are.  Calls may be nested to any depth:
by induction on the depth, methods and programs on one level are careful because those on the level below
are (`Reentry.sound_ofFuel`).
-/

namespace EmbeddedRuby

open Eval

variable {σ : Type} [Handled σ] {r : Reentry σ} {known : Nat}

/-- A program is careful on one level of calls. -/
theorem Program.careful_run (hr : r.Sound) {role : Role} {program : Program σ role}
    (hprogram : program.Honest known) : Careful known (program.run r) := by
  induction program generalizing known with
  | done result => exact .pure hprogram
  | panic message => exact .crash message
  | «recall» next ih =>
      refine .insideWorld fun w hw hknown => ?_
      exact ih w.memory (hprogram _ hknown _ hw.memory)
  | remember memory next ih =>
      refine Careful.bind (.change fun w hw hknown => ⟨.refl _, ?_⟩) fun _ => ih hprogram.2
      refine ⟨hw.machine, Handled.mono hknown hprogram.1, hw.bodies, fun {kind run} hrun => ?_⟩
      have hold : w.callback kind = some (.custom run) := by
        cases kind <;> exact hrun
      exact hw.callbacks hold
  | ask operation next ih =>
      exact (Operation.careful_answer hr hprogram.1).catchPanic.keep fun later hle answer hanswer =>
        ih answer (hprogram.2 later hle answer hanswer)
  | probe request next ih =>
      exact (Probe.careful_answer hr hprogram.1).catchPanic.keep fun later hle answer hanswer =>
        ih answer (hprogram.2 later hle answer hanswer)
  | callWithBlock receiver method args body next _ ih =>
      obtain ⟨hgiven, hbody, hnext⟩ := hprogram
      have hcalled := Vm.careful_callWithBlock hr hgiven.1 method hgiven.2 hbody
      exact (Vm.careful_settled hr hcalled).catchPanic.keep fun later hle answer hanswer =>
        ih answer (hnext later hle answer hanswer)
  | newProc body next _ ih =>
      have hmade := Vm.careful_newProc hprogram.1
      exact (Vm.careful_settled hr hmade).catchPanic.keep fun later hle answer hanswer =>
        ih answer (hprogram.2 later hle answer hanswer)
  | register kind callback next _ ih =>
      have hregistered := Vm.careful_register kind hprogram.1
      exact (Vm.careful_settled hr hregistered).catchPanic.keep fun later hle answer hanswer =>
        ih answer (hprogram.2 later hle answer hanswer)

theorem Reentry.sound_ofFuel (fuel : Nat) : (Reentry.ofFuel fuel : Reentry σ).Sound := by
  induction fuel with
  | zero => exact ⟨fun _ => .exhausted, fun _ => .exhausted⟩
  | succ fuel ih => exact ⟨fun hcall => careful_dispatch ih hcall, fun hprogram => Program.careful_run ih hprogram⟩

end EmbeddedRuby
