import EmbeddedRuby.Proofs.LifeCycle

/-!
# What an operation puts in the history

An operation calls methods, and methods call back code of the host's, which has operations of its own.
The errors that those end with are in the history too.  So the way from the world before an operation
to the world after it is cut into **interludes** (`World.Interlude`): a change of the operation's own,
which leaves the history and the memory of the host's programs alone, or a whole run of code that the world
offers (`World.Offers`), which does with the history as it pleases.

The main statement is `World.errors_recorded`.  An operation with a value is a sequence of interludes.
One that ends with an error is a sequence of interludes, after which that error is put in the history
and nothing else happens.
-/

namespace EmbeddedRuby

open Eval

variable {σ : Type}

namespace World

/-- No code of the host's has come into the world but bodies that were handed over. -/
structure KeepsCode (handed : Closure σ → Prop) (w w' : World σ) : Prop where
  procs : ∀ body ∈ w'.procs, body ∈ w.procs ∨ handed body
  callbacks : ∀ kind run, w'.callback kind = some (.custom run) →
    w.callback kind = some (.custom run)

/-- A part of the way through an operation to which the bodies are handed that are `handed`. -/
inductive Interlude (handed : Closure σ → Prop) (w : World σ) : World σ → Prop
  /-- The operation does something itself. -/
  | own {w' : World σ} (change : w.Change AnyProbe w') (history : w'.history = w.history)
      (memory : w'.memory = w.memory) (code : w.KeepsCode handed w') : Interlude handed w w'
  /-- The host's code is called back, and runs until it has ended. -/
  | hosted (fuel : Nat) {role : Role} {program : Program σ role}
      (offered : w.Offers handed program) :
      Interlude handed w (Outcome.world (program.run (.ofFuel fuel) w))

/-- Any number of interludes. -/
abbrev Interludes (handed : Closure σ → Prop) : World σ → World σ → Prop :=
  Relation.ReflTransGen (Interlude handed)

variable {handed : Closure σ → Prop} {w w' : World σ}

/-- The error that was recorded last is the most recent one. -/
theorem mostRecent_recorded (w : World σ) (error : Error) :
    (w.recorded error).history.mostRecent? = some error := by
  unfold recorded History.record History.mostRecent?
  split <;> simp

/-- No code has come into a world with the procs and the callbacks that it had. -/
theorem KeepsCode.of_eq (hprocs : w'.procs = w.procs) (hblock : w'.blockCallback = w.blockCallback)
    (hproc : w'.procCallback = w.procCallback) : w.KeepsCode handed w' := by
  refine ⟨fun body hmem => .inl (hprocs ▸ hmem), fun kind run hrun => ?_⟩
  cases kind with
  | block => exact hblock.symm.trans hrun
  | proc => exact hproc.symm.trans hrun

/-- Nothing that the host has put there stands in a place that is filled when the interpreter is
brought up. -/
theorem keepsCode_fillCallbacks (w : World σ) : w.KeepsCode handed w.fillCallbacks := by
  refine ⟨fun body hmem => .inl hmem, fun kind run hrun => ?_⟩
  cases kind with
  | block =>
      cases hfound : w.blockCallback with
      | none => simp [callback, fillCallbacks, hfound] at hrun
      | some found => simpa [callback, fillCallbacks, hfound] using hrun
  | proc =>
      cases hfound : w.procCallback with
      | none => simp [callback, fillCallbacks, hfound] at hrun
      | some found => simpa [callback, fillCallbacks, hfound] using hrun

/-- What the operation does itself on the interpreter's side is an interlude. -/
theorem Interlude.onMachine {m : Machine} (change : w.Change AnyProbe { w with machine := m }) :
    w.Interludes handed { w with machine := m } :=
  .single (.own change rfl rfl (.of_eq rfl rfl rfl))

/-- Steps of the interpreter are an interlude. -/
theorem interludes_steps {m : Machine} (h : w.machine.Steps m) :
    w.Interludes handed { w with machine := m } := by
  induction h with
  | refl => exact .refl
  | @tail m₁ m₂ before last ih =>
      have hstep : ({ w with machine := m₁ } : World σ).Interludes handed { w with machine := m₂ } :=
        Interlude.onMachine (.step (.machine _ last))
      exact ih.trans hstep

/-- Any change of the stacks is an interlude. -/
theorem interludes_restack (w : World σ) (frames : List Frame) (yields : List (Option Nat)) :
    w.Interludes handed (w.onMachine fun m => { m with frames, yields }) :=
  Interlude.onMachine (.restack w frames yields)

/-- The stacks are cut back after an exit, and nothing is pending any more. -/
theorem interludes_afterExit (w w₁ : World σ) :
    w₁.Interludes handed (w₁.restored w).withoutPending :=
  (interludes_restack w₁ _ _).trans (Interlude.onMachine (.withoutPending _))

/-- Passing a panic over is an interlude. -/
theorem interludes_overlook (w : World σ) : w.Interludes handed w.overlook := by
  have hchange : w.Change AnyProbe w.overlook := .overlook w
  obtain ⟨panicLog, hoverlook⟩ := w.overlook_eq
  rw [hoverlook] at hchange ⊢
  exact .single (.own hchange rfl rfl (.of_eq rfl rfl rfl))

/-- Bringing the interpreter up is an interlude. -/
theorem interludes_setup {info : BootInfo} {result : Except Error Unit} {w₁ : World σ}
    (hunknown : w.state = .unknown) (hstart : (Vm.start info).run w = .ok result w₁) :
    w.Interludes handed { w₁ with state := stateAfter result } := by
  have hchange : w.Change AnyProbe { w₁ with state := stateAfter result } :=
    .step (.setup hunknown hstart)
  have hfilled : w.KeepsCode handed w.fillCallbacks := w.keepsCode_fillCallbacks
  refine .single (.own hchange ?_ ?_ ?_)
  · cases (Vm.start_cases hstart).2 <;> rfl
  · cases (Vm.start_cases hstart).2 <;> rfl
  · cases (Vm.start_cases hstart).2 with
    | refused => exact .of_eq rfl rfl rfl
    | badArguments | ran => exact ⟨hfilled.procs, hfilled.callbacks⟩

/-! ### Operations as sequences of interludes -/

/-- The account by which the way through an operation is a sequence of interludes. -/
def interludeAccount (handed : Closure σ → Prop) : Account σ :=
  fun w _ w' => w.Interludes handed w'

/-- What the interpreter does by itself comes to interludes. -/
theorem interlude_rules : (interludeAccount handed).Rules where
  done _ := .refl
  seq hfirst hrest := hfirst.trans hrest
  works _ _ h := interludes_steps h.steps
  raise w fault := Interlude.onMachine (.raising w fault)
  raiseObject _ _ hexception := Interlude.onMachine (.raisingObject hexception)
  breakOut _ _ := .refl
  crash _ _ := .refl
  exhausted _ := .refl
  iterate hinner := hinner.trans (interludes_restack _ _ _)

/-- The code of a block is an interlude as a whole, since the world offers it. -/
theorem interlude_blockRules : (interludeAccount handed).BlockRules where
  toRules := interlude_rules
  block {w _ _} hinner :=
    (interludes_restack w _ _).trans (hinner.trans (interludes_restack _ _ _))
  blockLeft {w _ _ _} hinner _ := (interludes_restack w _ _).trans hinner
  callback {_ w₁ p} hinner := by
    have hparked : w₁.Interludes handed (w₁.park p) :=
      .single (.own (.park w₁ p) rfl rfl (.of_eq rfl rfl rfl))
    exact hinner.trans (hparked.trans (Interlude.onMachine (.raising _ _)))

/-- All that an operation does before its end comes to interludes. -/
theorem interlude_operationRules : (interludeAccount handed).OperationRules handed where
  toBlockRules := interlude_blockRules
  setup hunknown hstart := interludes_setup hunknown hstart
  learn hnew hasked _ := .single (.own (.step (.learn _ hnew hasked)) rfl rfl (.of_eq rfl rfl rfl))
  boxed hup := .single (.own (.step (.boxed hup)) rfl rfl (.of_eq rfl rfl rfl))
  addProc {w body} hup hbody := by
    have hany : Closure.Uses AnyProbe body := fun args => (body args).uses_anyProbe
    refine .single (.own (.addProc hup hany) rfl rfl ⟨fun other hmem => ?_, fun _ _ hrun => hrun⟩)
    rcases Array.mem_push.mp hmem with hold | rfl
    · exact .inl hold
    · exact .inr hbody
  settled {w w₁ _} hinner _ := hinner.trans (interludes_afterExit w w₁)
  resumed {w w₁ _ p} hinner _ := by
    have hcleared := hinner.trans (interludes_afterExit w w₁)
    exact hcleared.tail (.own (.resume _ p) rfl rfl (.of_eq rfl rfl rfl))
  quiet {w w₁ _} hinner := by
    have hcleared := hinner.trans (interludes_afterExit w w₁)
    exact hcleared.trans (interludes_overlook _)

end World

variable {handed : Closure σ → Prop} {r : Reentry σ}

/-- Each task comes to interludes. -/
theorem interludes_perform (hr : r.ToldBy (World.interludeAccount handed) handed) (task : Task) :
    ToldBy (World.interludeAccount handed) (perform r task) := by
  have hframes : (World.interludeAccount handed).LetsFramesChange := fun w frames =>
    World.interludes_restack w frames _
  have hcount : ∀ w : World σ, w.Interludes handed
      (w.onMachine fun m => { m with internCalls := m.internCalls + 1 }) := fun w =>
    World.Interlude.onMachine (.step (.machine w (.countIntern w.machine)))
  have hordinary : (World.interludeAccount handed).TellsOrdinary r :=
    World.interlude_blockRules.ordinary hr
  have hdefs : (World.interludeAccount handed).TellsDefinitions r :=
    .of_deeds World.interlude_rules hordinary fun _ _ hdeeds =>
      World.interludes_steps hdeeds.steps
  have hload := World.interlude_rules.loadObject hordinary hframes hdefs
  exact World.interlude_rules.perform_any hordinary hload hcount task

/-- However deep calls are nested, they come to interludes, and what runs of the host's code in them
is one interlude each time. -/
theorem Reentry.interludes_ofFuel (handed : Closure σ → Prop) (fuel : Nat) :
    (Reentry.ofFuel fuel : Reentry σ).ToldBy (World.interludeAccount handed) handed := by
  induction fuel with
  | zero => exact ⟨fun _ _ _ => .refl, fun _ _ => .refl⟩
  | succ fuel ih =>
      refine ⟨fun call hcall w => ?_, fun program hoffers => .single (.hosted fuel hoffers)⟩
      exact World.interlude_blockRules.dispatch ih hcall (fun task _ => interludes_perform ih task)
        fun _ body _ invocation => (body invocation).within_any

namespace Vm

/-- The operation hands the body over: as a block, or to make a proc of it. -/
inductive Hands (r : Reentry σ) : {α : Type} → Checked σ α → Closure σ → Prop
  | callWithBlock (receiver : Value) (method : String) (args : List Value) (body : Closure σ) :
      Hands r (callWithBlock r receiver method args body) body
  | newProc (body : Closure σ) : Hands r (newProc body) body

/-- What needs the interpreter takes its steps one after the other. -/
theorem NeedsRuntime.stepwise {α : Type} {operation : Checked σ α}
    (h : NeedsRuntime r operation) : Stepwise r (Hands r operation) operation := by
  cases h with
  | setup info => exact .setup info
  | version | description => exact Stepwise.ensureSetup.bind fun _ => .pure _
  | objectClass => exact .objectClass
  | internedName name => exact .internedName name
  | load path wrap => exact .load path wrap
  | constant path => exact .constant path
  | constantIn module name => exact .constantIn module name
  | constantAt module name => exact .constantAt module name
  | classVar cls name => exact .classVar cls name
  | call receiver method args => exact .call receiver method args
  | callWithKeywords receiver method args keywords =>
      exact .callWithKeywords receiver method args keywords
  | callWithBlock receiver method args body =>
      exact .callWithBlock receiver method args (.callWithBlock receiver method args body)
  | callWithProc receiver method args proc => exact .callWithProc receiver method args proc
  | callProc proc args block => exact .callProc proc args block
  | newProc body => exact .newProc (.newProc body)
  | newException cls message => exact .newException cls message
  | inspect v => exact .inspect v
  | toText v => exact .toText v
  | toUnsigned v => exact .toUnsigned v
  | toSigned v => exact .toSigned v
  | toDouble v => exact .toDouble v
  | readInt type v => exact .readInt type v
  | readSingle v => exact .readSingle v
  | write datum => exact .write datum
  | writeBool b => exact .writeBool b
  | pin => exact .pin

end Vm

namespace World

/-- **What is put in the history.**  From every world:

* An operation that needs the interpreter and has a value is a sequence of interludes.  If it ends
  with an error, then it is a sequence of interludes, after which that error is put in the history;
  so it is the most recent one.  If a panic comes out of it, then nothing is put there for that.
* Filling the place of a callback puts nothing in the history, or the error that it ends with.
* Taking the interpreter down and giving up a root put nothing there. -/
theorem errors_recorded {α : Type} (fuel : Nat) {operation : Checked σ α}
    (hoperation : Vm.NeedsRuntime (.ofFuel fuel) operation) (w : World σ) :
    let r : Reentry σ := .ofFuel fuel
    let handed := Vm.Hands r operation
    (match Vm.settled r operation w with
      | .ok (.ok _) w' => w.Interludes handed w'
      | .ok (.error error) w' =>
        (∃ u, w.Interludes handed u ∧ w' = u.recorded error) ∧
          w'.history.mostRecent? = some error
      | .error exit w' => w.Interludes handed w' ∧ ∀ jump, exit ≠ .jump jump) ∧
    (∀ kind callback,
      (∃ w', Vm.settled r (Vm.register kind callback) w = .ok (.ok ()) w' ∧
        w'.history = w.history) ∨
      ∃ error, Vm.settled r (Vm.register kind callback) w = .ok (.error error) (w.recorded error) ∧
        (w.recorded error).history.mostRecent? = some error) ∧
    (∀ code w', Vm.cleanUp w = .ok code w' → w'.history = w.history) ∧
    ∀ root w', Vm.unpin root w = .ok () w' → w'.history = w.history := by
  intro r handed
  have hr : r.ToldBy (interludeAccount handed) handed := Reentry.interludes_ofFuel handed fuel
  refine ⟨?_, fun kind callback => ?_, fun code w' hrun => ?_, fun root w' hrun => ?_⟩
  · have hanswered := hoperation.stepwise.settled interlude_operationRules hr
      (fun task _ => interludes_perform hr task) w
    match hrun : Vm.settled r operation w with
    | .ok (.ok a) w' =>
        rw [hrun] at hanswered
        exact hanswered
    | .ok (.error error) w' =>
        rw [hrun] at hanswered
        obtain ⟨u, hu, rfl⟩ := hanswered
        exact ⟨⟨u, hu, rfl⟩, u.mostRecent_recorded error⟩
    | .error exit w' =>
        rw [hrun] at hanswered
        exact hanswered
  · cases hfound : w.callback kind with
    | none =>
        refine .inl ⟨w.setCallback kind callback, ?_, by cases kind <;> rfl⟩
        rw [Vm.settled_apply]
        unfold Vm.register
        rw [run_get_bind_apply, hfound]
        rfl
    | some found =>
        refine .inr ⟨.badParameter (Vm.callbackText kind ++ " callback is already registered"),
          ?_, w.mostRecent_recorded _⟩
        rw [Vm.settled_apply]
        unfold Vm.register
        rw [run_get_bind_apply, hfound]
        rfl
  · unfold Vm.cleanUp at hrun
    rw [get_bind_apply] at hrun
    cases hstate : w.state <;> rw [hstate] at hrun <;> cases hrun <;> rfl
  · rw [Vm.unpin_apply] at hrun
    cases hrun
    split <;> rfl

/-- A world with a proc that puts an error in the history and then breaks off. -/
def complaining : World Unit :=
  { bare.addProc fun _ =>
      .ask (.raise (.badParameter "inner")) fun _ => .done (.breakOff : BlockReturn) with
    procCallback := some .closures }

/-- Where that proc is called, the error that it puts there is followed by the one that the call
ends with. -/
theorem errors_recorded_complaining :
    let proc := (bare.machine.alloc CoreClass.procClass.value (.proc 0)).1
    let operation : Checked Unit Value := Vm.callProc (.ofFuel 3) proc [] none
    ∃ u w', Vm.settled (.ofFuel 3) operation complaining = .ok (.error (.jump 2)) w' ∧
      complaining.Interludes (Vm.Hands (.ofFuel 3) operation) u ∧ w' = u.recorded (.jump 2) ∧
      w'.history.errors = [.badParameter "inner", .jump 2] := by
  intro proc operation
  have hrecorded := (errors_recorded 3 (.callProc proc [] none) complaining).1
  have hanswer : (match Vm.settled (.ofFuel 3) operation complaining with
      | .ok (.error error) w' => some (error, w'.history.errors)
      | _ => none) = some (.jump 2, [.badParameter "inner", .jump 2]) := by
    decide +kernel
  match hrun : Vm.settled (.ofFuel 3) operation complaining with
  | .ok (.error error) w' =>
      rw [hrun] at hanswer hrecorded
      obtain ⟨⟨u, hu, heq⟩, -⟩ := hrecorded
      obtain ⟨rfl, herrors⟩ := Prod.mk.inj (Option.some.inj hanswer)
      exact ⟨u, w', rfl, hu, heq, herrors⟩
  | .ok (.ok v) w' | .error exit w' =>
      rw [hrun] at hanswer
      cases hanswer

end World

end EmbeddedRuby
