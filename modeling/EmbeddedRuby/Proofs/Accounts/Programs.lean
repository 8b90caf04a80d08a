import EmbeddedRuby.Proofs.Accounts.Requests

/-!
# Accounts of programs

A program of the host's is told of if calling back is, as far as the probes in it are allowed
(`Program.told_run`).  That closes the circle: by induction on the depth an account of what programs
do tells of calling back however deep it goes, if it does of the one thing that the rules leave open,
which is how the stack of script bodies changes.
-/

namespace EmbeddedRuby

open Eval Vm

variable {σ α : Type} {P : Probe → Prop} {S : Account σ} {r : Reentry σ}

/-- A jump is stopped at the barrier, if a probe may put one there. -/
theorem Eval.ToldBy.protect (hS : S.ProgramRules P) {action : Eval σ α} {task : Task}
    (hprobe : P (.attempt task)) (h : ToldBy S action) : SettledBy S (protect action) := by
  refine ⟨fun w => ?_, fun w jump w' hjump => ?_⟩
  · have hopen := protect_apply action w
    cases hrun : action w with
    | ok a w' =>
        rw [hrun] at hopen
        exact .of_eq hopen ((h w).of_run hrun)
    | error exit w' =>
        have htold := (h w).of_run hrun
        rw [hrun] at hopen
        refine .of_eq hopen ?_
        cases exit with
        | jump jump => exact hS.attempted hprobe htold
        | panic p => exact htold
        | exhausted => exact htold
  · rw [protect_apply] at hjump
    cases hrun : action w with
    | ok a w₁ =>
        rw [hrun] at hjump
        cases hjump
    | error exit w₁ =>
        rw [hrun] at hjump
        cases exit <;> cases hjump

/-- Each probe that is allowed is told of. -/
theorem Probe.told_answer (hS : S.ProgramRules P)
    (htask : ∀ task, P (.attempt task) → ToldBy S (perform r task)) {probe : Probe}
    (hprobe : P probe) : SettledBy S (probe.answer r) := by
  have works : ∀ {β : Type} {f : Machine → β × Machine}, (∀ m : Machine, m.Works (f m).2) →
      SettledBy S (onMachine f : Eval σ β) := fun h =>
    .of_value fun w => ⟨_, _, rfl, hS.works w (h w.machine)⟩
  have step : ∀ {β : Type} {action : Eval σ β}, (∀ w, ∃ b w', action w = .ok b w' ∧ probe.Step w w') →
      SettledBy S action := by
    intro β action h
    refine .of_value fun w => ?_
    obtain ⟨b, w', hrun, hstep⟩ := h w
    exact ⟨b, w', hrun, hS.probe hprobe hstep⟩
  cases probe with
  | make datum => exact works fun m => .make m datum
  | typeOf value | pending | counts => exact .of_value fun w => ⟨_, w, rfl, hS.done w⟩
  | setPending value => exact step fun w => ⟨_, _, rfl, .setPending w value⟩
  | attempt task =>
      exact ((htask task hprobe).protect hS hprobe).bind hS.toRules fun _ => .pure hS.toRules _
  | takePrinted => exact step fun w => ⟨_, _, rfl, .takePrinted w⟩
  | options argv => exact step fun w => ⟨_, _, rfl, .options w argv⟩
  | define cls name body => exact step fun w => ⟨_, _, rfl, .define w cls name body⟩
  | internedName name => exact works fun m => .intern m name

/-- A panic in what a program asked for becomes the answer. -/
theorem Eval.SettledBy.catchPanic (hS : S.ProgramRules P) {action : Eval σ α}
    (h : SettledBy S action) : SettledBy S (catchPanic action) := by
  refine ⟨fun w => ?_, fun w jump w' hjump => ?_⟩
  · have hopen := catchPanic_apply action w
    cases hrun : action w with
    | ok a w' =>
        rw [hrun] at hopen
        exact .of_eq hopen ((h.told w).of_run hrun)
    | error exit w' =>
        have htold := (h.told w).of_run hrun
        rw [hrun] at hopen
        refine .of_eq hopen ?_
        cases exit with
        | panic p => exact hS.caught htold
        | jump jump => exact htold
        | exhausted => exact htold
  · rw [catchPanic_apply] at hjump
    cases hrun : action w with
    | ok a w₁ =>
        rw [hrun] at hjump
        cases hjump
    | error exit w₁ =>
        rw [hrun] at hjump
        cases exit with
        | panic p => cases hjump
        | jump other => exact h.noJump w other w₁ hrun
        | exhausted => cases hjump

/-- A program is told of, if it uses no probes but those that are allowed. -/
theorem Program.told_run (hS : S.ProgramRules P) (hr : r.ToldBy S (Closure.Uses P))
    (huncounted : ∀ task : Task, task.IsUncounted → ToldBy S (perform r task)) {role : Role}
    (program : Program σ role) (hprogram : program.Uses P) : SettledBy S (program.run r) := by
  have hrequest : ∀ request : Request σ, request.Uses P →
      SettledBy S (Eval.catchPanic (request.answer r)) := fun request huses =>
    (request.told_answer hS hr huncounted huses).catchPanic hS
  have htask : ∀ task, P (.attempt task) → ToldBy S (perform r task) := by
    intro task hprobe
    cases task with
    | intern name => exact hS.perform_intern (hS.counted hprobe) name
    | _ => exact huncounted _ trivial
  induction program with
  | done result => exact .pure hS.toRules result
  | panic message => exact .crash hS.toRules message
  | «recall» next ih =>
      have hnext : ∀ memory, SettledBy S ((next memory).run r) := fun memory =>
        ih memory (hprogram memory)
      exact ⟨fun w => .get_bind ((hnext w.memory).told w),
        fun w => (hnext w.memory).noJump w⟩
  | remember memory next ih =>
      have hremembered : SettledBy S (modify fun w => { w with memory } : Eval σ PUnit) :=
        .of_value fun w => ⟨_, _, rfl, hS.remember w memory⟩
      exact hremembered.bind hS.toRules fun _ => ih hprogram
  | ask operation next ih =>
      exact (hrequest (.operation operation) trivial).bind hS.toRules fun answer =>
        ih answer (hprogram answer)
  | probe request next ih =>
      refine ((Probe.told_answer hS htask hprogram.1).catchPanic hS).bind hS.toRules fun answer => ?_
      exact ih answer (hprogram.2 answer)
  | callWithBlock receiver method args body next ih ih' =>
      exact (hrequest (.callWithBlock receiver method args body) hprogram.1).bind hS.toRules
        fun answer => ih' answer (hprogram.2 answer)
  | newProc body next ih ih' =>
      exact (hrequest (.newProc body) hprogram.1).bind hS.toRules fun answer =>
        ih' answer (hprogram.2 answer)
  | register kind callback next ih ih' =>
      exact (hrequest (.register kind callback) hprogram.1).bind hS.toRules fun answer =>
        ih' answer (hprogram.2 answer)

end EmbeddedRuby
