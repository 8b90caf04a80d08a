import EmbeddedRuby.Proofs.Changes

/-!
# Runs as sequences

A run is a sequence of changes, and what it comes to depends on which changes these can be.  For a
relation between worlds to be one that runs are **sequences** of (`World.Sequenced`), it has to take in
the changes that leave the heap alone and those that make objects; for then such sequences are an
account that all rules hold of.  If they also tell of what scripts define, every run is one
(`World.Sequenced.run`).
-/

namespace EmbeddedRuby

open Eval Relation

variable {σ : Type}

namespace World

/-- The account by which a run is a sequence of what the relation allows. -/
def sequences (R : World σ → World σ → Prop) : Account σ :=
  fun w _ w' => ReflTransGen R w w'

/-- The relation takes in whatever can happen in a run but for the definitions of scripts. -/
structure Sequenced (R : World σ → World σ → Prop) : Prop where
  /-- Changes that leave the heap alone. -/
  elsewhere : ∀ {w w' : World σ}, w.Change AnyProbe w' → w'.machine.heap = w.machine.heap →
    w'.machine.overwrites = w.machine.overwrites → R w w'
  works : ∀ (w : World σ) {m : Machine}, w.machine.Works m → ReflTransGen R w { w with machine := m }
  raising : ∀ (w : World σ) (fault : Fault), R w (w.raising fault)
  raisingObject : ∀ (w : World σ) {exception : Value},
    w.machine.heap.isKindOf exception CoreClass.exception.value → R w (w.raisingObject exception)
  addProc : ∀ {w : World σ} {body : Closure σ}, w.state = .up → Closure.Uses AnyProbe body →
    R w (w.addProc body)

/-- Sequences tell of the definitions of scripts. -/
def TellDefinitions (R : World σ → World σ → Prop) : Prop :=
  ∀ r : Reentry σ, (sequences R).TellsOrdinary r → (sequences R).TellsDefinitions r

namespace Sequenced

variable {R : World σ → World σ → Prop}

/-- The relation takes in changes of the stacks, which leave the heap alone. -/
theorem restack (h : Sequenced R) (w : World σ) (frames : List Frame) (yields : List (Option Nat)) :
    R w (w.onMachine fun m => { m with frames, yields }) :=
  h.elsewhere (.restack w frames yields) rfl rfl

/-- The relation takes in that a name is counted. -/
theorem countIntern (h : Sequenced R) (w : World σ) :
    R w (w.onMachine fun m => { m with internCalls := m.internCalls + 1 }) :=
  h.elsewhere (.step (.machine w (.countIntern w.machine))) rfl rfl

/-- The stacks are cut back after an exit, and nothing is pending any more. -/
theorem afterExit (h : Sequenced R) (w w₁ : World σ) :
    ReflTransGen R w₁ (w₁.restored w).withoutPending :=
  .tail (.single (h.restack w₁ _ _)) (h.elsewhere (.withoutPending _) rfl rfl)

/-- What the interpreter does by itself comes to such sequences. -/
theorem rules (h : Sequenced R) : (sequences R).Rules where
  done _ := .refl
  seq hfirst hrest := hfirst.trans hrest
  works w _ hworks := h.works w hworks
  raise w fault := .single (h.raising w fault)
  raiseObject w _ hexception := .single (h.raisingObject w hexception)
  breakOut _ _ := .refl
  crash _ _ := .refl
  exhausted _ := .refl
  iterate {_ w₁ _ _} hinner := hinner.tail (h.restack w₁ _ _)

/-- Blocks come to such sequences. -/
theorem blockRules (h : Sequenced R) : (sequences R).BlockRules where
  toRules := h.rules
  block {w w₁ _} hinner := .head (h.restack w _ _) (hinner.tail (h.restack w₁ _ _))
  blockLeft {w _ _ _} hinner _ := .head (h.restack w _ _) hinner
  callback {_ w₁ p} hinner :=
    (hinner.tail (h.elsewhere (.park w₁ p) rfl rfl)).tail (h.raising _ _)

/-- Operations come to such sequences. -/
theorem operationRules (h : Sequenced R) :
    (sequences R).OperationRules (Closure.Uses AnyProbe) where
  toBlockRules := h.blockRules
  setup {w w₁ info result} hunknown hstart := by
    have hsetup : w.Change AnyProbe _ := .step (.setup hunknown hstart)
    cases (Vm.start_cases hstart).2 with
    | refused | badArguments => exact .single (h.elsewhere hsetup rfl rfl)
    | @ran arguments =>
        exact .single (h.elsewhere hsetup (w.machine.setUp.2.options_heap arguments)
          (w.machine.setUp.2.options_overwrites arguments))
  learn hnew hasked _ := .single (h.elsewhere (.step (.learn _ hnew hasked)) rfl rfl)
  boxed hup := .single (h.elsewhere (.step (.boxed hup)) rfl rfl)
  addProc hup hbody := .single (h.addProc hup hbody)
  settled {w w₁ _} hinner _ := hinner.trans (h.afterExit w w₁)
  resumed {w w₁ _ p} hinner _ :=
    (hinner.trans (h.afterExit w w₁)).tail (h.elsewhere (.resume _ p) rfl rfl)
  quiet {w w₁ _} hinner := by
    have hmachine := overlook_machine (w₁.restored w).withoutPending
    exact (hinner.trans (h.afterExit w w₁)).tail (h.elsewhere (.overlook _)
      (congrArg Machine.heap hmachine) (congrArg Machine.overwrites hmachine))

/-- Programs come to such sequences. -/
theorem programRules (h : Sequenced R) : (sequences R).ProgramRules AnyProbe where
  toOperationRules := h.operationRules
  record w error := .single (h.elsewhere (.step (.record w error)) rfl rfl)
  clearErrors w := .single (h.elsewhere (.step (.clearErrors w)) rfl rfl)
  remember w memory := .single (h.elsewhere (.step (.remember w memory)) rfl rfl)
  unboxed w _ hheld := .single (h.elsewhere (.step (.unboxed w hheld)) rfl rfl)
  cleanUp hup := .single (h.elsewhere (.step (.cleanUp _ hup)) rfl rfl)
  register {w kind run} hempty hrun := by
    have hmachine := w.setCallback_machine kind (.custom run)
    exact .single (h.elsewhere (.register hempty hrun) (congrArg Machine.heap hmachine)
      (congrArg Machine.overwrites hmachine))
  caught hinner := hinner
  probe {w _ _} hprobe hstep := by
    have hchange : w.Change AnyProbe _ := .probe hprobe hstep
    cases hstep with
    | options w argv =>
        exact .single (h.elsewhere hchange (w.machine.options_heap argv)
          (w.machine.options_overwrites argv))
    | _ => exact .single (h.elsewhere hchange rfl rfl)
  counted _ w := .single (h.countIntern w)
  attempted {w w₁ _ _} _ hinner := hinner.tail (h.restack w₁ _ _)

/-- If the relation takes in the steps one by one, sequences tell of definitions. -/
theorem tellDefinitions (h : Sequenced R) (hdeeds : ∀ (w : World σ) {m : Machine},
    w.machine.Deeds m → ReflTransGen R w { w with machine := m }) : TellDefinitions R :=
  fun _ hordinary => .of_deeds h.rules hordinary hdeeds

/-- Each task comes to such a sequence, if definitions do. -/
theorem perform (h : Sequenced R) (hdefs : TellDefinitions R) {r : Reentry σ}
    (hr : r.ToldBy (sequences R) (Closure.Uses AnyProbe)) (task : Task) :
    ToldBy (sequences R) (perform r task) := by
  have hframes : (sequences R).LetsFramesChange := fun w frames => .single (h.restack w frames _)
  have hordinary : (sequences R).TellsOrdinary r := h.blockRules.ordinary hr
  have hload := h.rules.loadObject hordinary hframes (hdefs r hordinary)
  exact h.rules.perform_any hordinary hload (fun w => .single (h.countIntern w)) task

/-- However deep calls are nested, they come to sequences. -/
theorem toldBy_ofFuel (h : Sequenced R) (hdefs : TellDefinitions R) (fuel : Nat) :
    (Reentry.ofFuel fuel : Reentry σ).ToldBy (sequences R) (Closure.Uses AnyProbe) := by
  induction fuel with
  | zero => exact ⟨fun _ _ _ => .refl, fun _ _ => .refl⟩
  | succ fuel ih =>
      refine ⟨fun call hcall w => ?_, fun {role w} program _ => ?_⟩
      · exact h.blockRules.dispatch ih hcall (fun task _ => h.perform hdefs ih task)
          fun _ body _ invocation => (body invocation).within_any
      · have hrun := program.told_run h.programRules ih (fun task _ => h.perform hdefs ih task)
          program.uses_anyProbe
        exact hrun.told w

/-- **Whatever a program of the host's does comes to a sequence.** -/
theorem run (h : Sequenced R) (hdefs : TellDefinitions R) (fuel : Nat) {role : Role}
    (program : Program σ role) (w : World σ) :
    ReflTransGen R w (Outcome.world (program.run (.ofFuel fuel) w)) := by
  have hr := h.toldBy_ofFuel hdefs fuel
  have hrun := program.told_run h.programRules hr (fun task _ => h.perform hdefs hr task)
    program.uses_anyProbe
  exact hrun.told w

end Sequenced

end World

end EmbeddedRuby
