import EmbeddedRuby.Proofs.PendingException

/-!
# The changes in a run

A course says how a run is put together.  For what holds at every moment of a run the order of its
parts does not matter, only what each of them can do: a run is then a sequence of **changes** to the
world (`World.Change`).  The worlds to which such sequences lead (`World.Reaches`) are those at
which a run ends, and also those in the middle of it, in which a body of the host's begins to run
inside a block, asks for something, and is given an answer.

`Course.reaches` says that nothing is lost: every course is a sequence of changes.  So a property
that is kept by each change holds at every moment of every run (`World.Reaches.kept`).

What a change does is said once, for the two sides of the border.  On the host's side few changes do
anything at all, and each of them one thing (`World.Change.host`).  The interpreter's own steps make
and change objects and names, count and print (`Machine.Step.frame`), and no object becomes what it
cannot (`World.Change.evolves`).
-/

namespace EmbeddedRuby

open Eval

variable {σ : Type} {P : Probe → Prop}

/-- One change of the world in a run, where the host uses the probes that `P` allows. -/
inductive World.Change (P : Probe → Prop) : World σ → World σ → Prop
  | step {w w' : World σ} (h : w.Step w') : Change P w w'
  | addProc {w : World σ} {body : Closure σ} (hup : w.state = .up)
      (hbody : Closure.Uses P body) : Change P w (w.addProc body)
  /-- A callback fills an empty place. -/
  | register {w : World σ} {kind : CallbackKind} {run : CallbackInput → Program σ .callback}
      (hempty : w.callback kind = none) (hrun : ∀ input, Program.Uses P (run input)) :
      Change P w (w.setCallback kind (.custom run))
  | probe {w w' : World σ} {probe : Probe} (hprobe : P probe) (h : probe.Step w w') : Change P w w'
  | raising (w : World σ) (fault : Fault) : Change P w (w.raising fault)
  | raisingObject {w : World σ} {exception : Value}
      (hexception : w.machine.heap.isKindOf exception CoreClass.exception.value) :
      Change P w (w.raisingObject exception)
  /-- Blocks and scripts are entered and left, and a script goes on to another line. -/
  | restack (w : World σ) (frames : List Frame) (yields : List (Option Nat)) :
      Change P w (w.onMachine fun m => { m with frames, yields })
  | withoutPending (w : World σ) : Change P w w.withoutPending
  | park (w : World σ) (p : Panic) : Change P w (w.park p)
  | overlook (w : World σ) : Change P w w.overlook
  | resume (w : World σ) (p : Panic) : Change P w (w.resume p)

/-- A run from the one world can come to the other, on its way or at its end. -/
abbrev World.Reaches (P : Probe → Prop) : World σ → World σ → Prop :=
  Relation.ReflTransGen (World.Change P)

namespace World

variable {w w₁ w₂ : World σ}

/-- One change is a run. -/
theorem Change.reaches (h : w.Change P w₁) : w.Reaches P w₁ :=
  .single h

/-- **What each change keeps holds at every moment of a run.** -/
theorem Reaches.kept {Kept : World σ → Prop}
    (hstep : ∀ {u u' : World σ}, u.Change P u' → Kept u → Kept u') (h : w.Reaches P w₁)
    (hw : Kept w) : Kept w₁ := by
  induction h with
  | refl => exact hw
  | tail _ last ih => exact hstep last ih

/-- Moving on to another line is a change. -/
theorem Change.setLine (w : World σ) (line : Nat) :
    w.Change P (w.onMachine fun m => m.setLine line) := by
  have hstacks : w.machine.setLine line =
      { w.machine with
        frames := (w.machine.setLine line).frames, yields := w.machine.yields } := by
    unfold Machine.setLine
    cases hframes : w.machine.frames with
    | nil => rfl
    | cons frame rest => rfl
  have hchange : w.Change P _ := .restack w (w.machine.setLine line).frames w.machine.yields
  rw [onMachine, ← hstacks] at hchange
  exact hchange

/-- No change brings in code that may do more than the host's code may. -/
theorem Change.hostCode (h : w.Change P w₁) (hw : w.HostCode P) : w₁.HostCode P := by
  cases h with
  | step h => exact h.hostCode hw
  | addProc hup hbody => exact hw.addProc hbody
  | register hempty hrun => exact hw.setCallback hrun
  | probe hprobe h => cases h <;> exact hw.of_eq rfl rfl rfl
  | overlook => exact hw.overlook
  | raising | raisingObject | restack | withoutPending | park | resume => exact hw.of_eq rfl rfl rfl

/-- The host's code is what it was allowed to be at every moment of a run. -/
theorem Reaches.hostCode (h : w.Reaches P w₁) (hw : w.HostCode P) : w₁.HostCode P :=
  h.kept Change.hostCode hw

end World

/-- **Every course is a sequence of changes.** -/
theorem Course.reaches {script : Option Nat} {w w' : World σ} {ending : Ending}
    (h : Course P script w ending w') : w.Reaches P w' := by
  induction h with
  | done | breakOut | crash | exhausted => exact .refl
  | step h => exact (World.Change.step h).reaches
  | addProc hup hbody => exact (World.Change.addProc hup hbody).reaches
  | register hempty hrun => exact (World.Change.register hempty hrun).reaches
  | probe hprobe h => exact (World.Change.probe hprobe h).reaches
  | raise w fault => exact (World.Change.raising w fault).reaches
  | raiseObject hexception => exact (World.Change.raisingObject hexception).reaches
  | setLine w line => exact (World.Change.setLine w line).reaches
  | openBody w | closeBody w => exact (World.Change.restack w _ _).reaches
  | seq first rest ih₁ ih₂ => exact ih₁.trans ih₂
  | @block w w₁ target inner ih =>
      have hentered : w.Reaches P w₁ := .head (.restack w _ _) ih
      exact hentered.tail (.restack w₁ _ _)
  | @blockLeft w w₁ target exit inner hexit ih => exact .head (.restack w _ _) ih
  | @script w w₁ file label inner ih =>
      have hentered : w.Reaches P w₁ := .head (.restack w _ _) ih
      exact hentered.tail (.restack w₁ _ _)
  | @scriptLeft w w₁ file label exit inner ih => exact .head (.restack w _ _) ih
  | @iterate w w₁ target value inner ih => exact ih.tail (.restack w₁ _ _)
  | @callback w w₁ p inner ih => exact (ih.tail (.park w₁ p)).tail (.raising _ _)
  | ordinary inner ih | caught inner ih => exact ih
  | @attempt w w₁ task jump hprobe inner ih => exact ih.tail (.restack w₁ _ _)
  | @settled w w₁ jump inner hparked ih =>
      exact (ih.tail (.restack w₁ _ _)).tail (.withoutPending _)
  | @resumed w w₁ jump p inner hparked ih =>
      exact ((ih.tail (.restack w₁ _ _)).tail (.withoutPending _)).tail (.resume _ p)
  | @quiet w w₁ jump inner ih =>
      exact ((ih.tail (.restack w₁ _ _)).tail (.withoutPending _)).tail (.overlook _)

/-- A run comes to the world at its end. -/
theorem World.reaches_of_follows {α : Type} {action : Eval σ α} (h : Follows AnyProbe action)
    (w : World σ) : w.Reaches AnyProbe (Outcome.world (action w)) :=
  (h w w.hostCode_anyProbe).reaches

/-- A program comes to the world at its end. -/
theorem Program.reaches_run (fuel : Nat) {role : Role} (program : Program σ role) (w : World σ) :
    w.Reaches AnyProbe (Outcome.world (program.run (.ofFuel fuel) w)) := by
  have hsettles := program.settles_run (Reentry.follows_ofFuel AnyProbe fuel) program.uses_anyProbe
  exact (hsettles w w.hostCode_anyProbe).follows.reaches

/-! ### The host's side -/

namespace World

variable {w w' : World σ}

/-- What the host keeps for its own use, apart from errors and panics, is as it was. -/
structure SameHost (w w' : World σ) : Prop where
  state : w'.state = w.state
  ids : w'.ids = w.ids
  procs : w'.procs = w.procs
  callback : ∀ kind, w'.callback kind = w.callback kind

/-- Five things make up what the host keeps for its own use. -/
theorem SameHost.of_eq (hstate : w'.state = w.state) (hids : w'.ids = w.ids)
    (hprocs : w'.procs = w.procs) (hblock : w'.blockCallback = w.blockCallback)
    (hproc : w'.procCallback = w.procCallback) : w.SameHost w' := by
  refine ⟨hstate, hids, hprocs, ?_⟩
  intro kind
  cases kind with
  | block => exact hblock
  | proc => exact hproc

/-- None of them is in the machine. -/
theorem sameHost_machine (w : World σ) (m : Machine) : w.SameHost { w with machine := m } :=
  .of_eq rfl rfl rfl rfl rfl

/-- What a change does on the host's side. -/
inductive HostChange (P : Probe → Prop) (w w' : World σ) : Prop
  | same (h : w.SameHost w')
  | learn {name : String} (hnew : w.ids.get? name = none)
      (hasked : w.state = .up ∨ name ∈ describingNames) (h : w' = w.learn name)
  | addProc {body : Closure σ} (hbody : Closure.Uses P body) (h : w' = w.addProc body)
  | register {kind : CallbackKind} {run : CallbackInput → Program σ .callback}
      (hempty : w.callback kind = none) (hrun : ∀ input, Program.Uses P (run input))
      (h : w' = w.setCallback kind (.custom run))
  | setup {info : BootInfo} {result : Except Error Unit} {w₁ : World σ}
      (hunknown : w.state = .unknown) (hstart : (Vm.start info).run w = .ok result w₁)
      (h : w' = { w₁ with state := stateAfter result })
  | cleanUp (hup : w.state = .up) (h : w' = w.takenDown)

/-- Each step does one thing at most on the host's side. -/
theorem Step.host (h : w.Step w') : w.HostChange P w' := by
  cases h with
  | machine | record | clearErrors | remember | boxed | unboxed =>
      exact .same (.of_eq rfl rfl rfl rfl rfl)
  | learn hnew hasked => exact .learn hnew hasked rfl
  | setup hunknown hstart => exact .setup hunknown hstart rfl
  | cleanUp hup => exact .cleanUp hup rfl

/-- Few changes do anything on the host's side, and each of them one thing. -/
theorem Change.host (h : w.Change P w') : w.HostChange P w' := by
  cases h with
  | step h => exact h.host
  | addProc hup hbody => exact .addProc hbody rfl
  | register hempty hrun => exact .register hempty hrun rfl
  | probe hprobe h => cases h <;> exact .same (w.sameHost_machine _)
  | overlook =>
      obtain ⟨panicLog, hoverlook⟩ := w.overlook_eq
      rw [hoverlook]
      exact .same (.of_eq rfl rfl rfl rfl rfl)
  | raising | raisingObject | restack | withoutPending | park | resume =>
      exact .same (.of_eq rfl rfl rfl rfl rfl)

end World

/-! ### The interpreter's side -/

namespace Machine

variable {m m' : Machine}

/-- Steps of the interpreter concern objects, names, the numbers of iterations, the counts of names
that were asked for and of constants that were overwritten, and what was printed; all else is as it
was. -/
theorem Step.frame (h : m.Step m') :
    m' = { m with
      heap := m'.heap, symbols := m'.symbols, lastTarget := m'.lastTarget
      internCalls := m'.internCalls, overwrites := m'.overwrites, printed := m'.printed } := by
  cases h with
  | storeInHash hash key value =>
      unfold Machine.storeInHash
      split <;> rfl
  | _ => rfl

/-- Any number of steps concern what single steps concern, and nothing else. -/
theorem Steps.frame (h : m.Steps m') :
    m' = { m with
      heap := m'.heap, symbols := m'.symbols, lastTarget := m'.lastTarget
      internCalls := m'.internCalls, overwrites := m'.overwrites, printed := m'.printed } := by
  induction h with
  | refl => rfl
  | tail before last ih =>
      refine last.frame.trans ?_
      rw [ih]

/-- Neither the names that were asked for nor the iterations that were begun nor the constants that
were overwritten are counted down. -/
structure CountsUp (m m' : Machine) : Prop where
  internCalls : m.internCalls ≤ m'.internCalls
  lastTarget : m.lastTarget ≤ m'.lastTarget
  overwrites : m.overwrites ≤ m'.overwrites

/-- What is not counted at all is not counted down. -/
theorem CountsUp.of_eq (hcalls : m'.internCalls = m.internCalls)
    (htarget : m'.lastTarget = m.lastTarget) (hoverwrites : m'.overwrites = m.overwrites) :
    m.CountsUp m' :=
  ⟨Nat.le_of_eq hcalls.symm, Nat.le_of_eq htarget.symm, Nat.le_of_eq hoverwrites.symm⟩

/-- Counts that go up twice go up. -/
theorem CountsUp.trans {m₁ m₂ : Machine} (h₁ : m.CountsUp m₁) (h₂ : m₁.CountsUp m₂) :
    m.CountsUp m₂ :=
  ⟨Nat.le_trans h₁.internCalls h₂.internCalls, Nat.le_trans h₁.lastTarget h₂.lastTarget,
    Nat.le_trans h₁.overwrites h₂.overwrites⟩

/-- A constant that is set is counted if its module had one of that name already. -/
theorem setConstant_overwrites (m : Machine) (module : Value) (id : SymbolId) (value : Value) :
    (m.setConstant module id value).overwrites =
      if (m.heap.constantAt? module id).isSome then m.overwrites + 1 else m.overwrites :=
  rfl

/-- Each step of the interpreter counts up or leaves the counts alone. -/
theorem Step.countsUp (h : m.Step m') : m.CountsUp m' := by
  cases h with
  | countIntern => exact ⟨Nat.le_succ _, Nat.le_refl _, Nat.le_refl _⟩
  | newTarget => exact ⟨Nat.le_refl _, Nat.le_succ _, Nat.le_refl _⟩
  | setConstant module id value =>
      refine ⟨Nat.le_refl _, Nat.le_refl _, ?_⟩
      rw [setConstant_overwrites]
      split
      · exact Nat.le_succ _
      · exact Nat.le_refl _
  | storeInHash hash key value =>
      unfold Machine.storeInHash
      split <;> exact .of_eq rfl rfl rfl
  | _ => exact .of_eq rfl rfl rfl

/-- Any number of steps count up or leave the counts alone. -/
theorem Steps.countsUp (h : m.Steps m') : m.CountsUp m' := by
  induction h with
  | refl => exact .of_eq rfl rfl rfl
  | tail before last ih => exact ih.trans last.countsUp

/-- Giving an exception a backtrace takes steps, and changes that exception. -/
theorem fillBacktrace_eq (m : Machine) (exception : Value) :
    ∃ m₁ heap, m.Steps m₁ ∧ m.fillBacktrace exception = { m₁ with heap } := by
  unfold fillBacktrace
  split
  · split
    · exact ⟨_, _, m.backtrace_steps, rfl⟩
    · exact ⟨m, m.heap, .refl, rfl⟩
  · exact ⟨m, m.heap, .refl, rfl⟩

/-- A command line concerns nothing but where scripts are looked for. -/
theorem options_eq (m : Machine) (argv : List String) :
    ∃ loadPath, (m.options argv).2 = { m with loadPath } := by
  unfold options
  split
  · exact ⟨m.loadPath, rfl⟩
  · exact ⟨_, rfl⟩

/-- A command line asks for no names. -/
theorem options_internCalls (m : Machine) (argv : List String) :
    (m.options argv).2.internCalls = m.internCalls := by
  obtain ⟨loadPath, heq⟩ := m.options_eq argv
  rw [heq]

/-- A command line sets no constants. -/
theorem options_overwrites (m : Machine) (argv : List String) :
    (m.options argv).2.overwrites = m.overwrites := by
  obtain ⟨loadPath, heq⟩ := m.options_eq argv
  rw [heq]

/-- A command line counts nothing down. -/
theorem options_countsUp (m : Machine) (argv : List String) : m.CountsUp (m.options argv).2 := by
  obtain ⟨loadPath, heq⟩ := m.options_eq argv
  rw [heq]
  exact .of_eq rfl rfl rfl

/-- Giving an exception a backtrace counts nothing down. -/
theorem fillBacktrace_countsUp (m : Machine) (exception : Value) :
    m.CountsUp (m.fillBacktrace exception) := by
  obtain ⟨m₁, heap, hsteps, heq⟩ := m.fillBacktrace_eq exception
  have hcounts := Steps.countsUp hsteps
  rw [heq]
  exact ⟨hcounts.internCalls, hcounts.lastTarget, hcounts.overwrites⟩

end Machine

/-! ### What is counted -/

namespace World

variable {w w' : World σ}

/-- Each step of a run counts up or leaves the counts alone. -/
theorem Step.countsUp (h : w.Step w') : w.machine.CountsUp w'.machine := by
  cases h with
  | machine h => exact h.countsUp
  | learn => exact ⟨Nat.le_succ _, Nat.le_refl _, Nat.le_refl _⟩
  | setup hunknown hstart =>
      cases (Vm.start_cases hstart).2 with
      | refused | badArguments => exact .of_eq rfl rfl rfl
      | @ran arguments =>
          have hcounts := w.machine.setUp.2.options_countsUp arguments
          exact ⟨hcounts.internCalls, hcounts.lastTarget, hcounts.overwrites⟩
  | record | clearErrors | remember | boxed | unboxed | cleanUp => exact .of_eq rfl rfl rfl

/-- No change takes back that a name was asked for, that an iteration was begun, or that a constant was
overwritten. -/
theorem Change.countsUp (h : w.Change P w') : w.machine.CountsUp w'.machine := by
  cases h with
  | step h => exact h.countsUp
  | probe hprobe h =>
      cases h with
      | options w argv => exact w.machine.options_countsUp argv
      | _ => exact .of_eq rfl rfl rfl
  | @register kind run =>
      rw [setCallback_machine]
      exact .of_eq rfl rfl rfl
  | raising fault =>
      have hcounts := Machine.Steps.countsUp (w.machine.newException_steps fault)
      exact ⟨hcounts.internCalls, hcounts.lastTarget, hcounts.overwrites⟩
  | @raisingObject exception =>
      have hcounts := w.machine.fillBacktrace_countsUp exception
      exact ⟨hcounts.internCalls, hcounts.lastTarget, hcounts.overwrites⟩
  | overlook =>
      rw [overlook_machine]
      exact .of_eq rfl rfl rfl
  | addProc | restack | withoutPending | park | resume => exact .of_eq rfl rfl rfl

end World

/-! ### What the interpreter is given -/

/-- What is given to the interpreter before a run is as it was: its files, and the code that it
reports when it comes up. -/
structure Machine.SameGiven (m m' : Machine) : Prop where
  files : m'.files = m.files
  setupCode : m'.setupCode = m.setupCode

/-- What is given to the interpreter stays the same as long as nothing happens. -/
theorem Machine.SameGiven.refl (m : Machine) : m.SameGiven m :=
  ⟨rfl, rfl⟩

/-- No step of the interpreter writes a file. -/
theorem Machine.Steps.sameGiven {m m' : Machine} (h : m.Steps m') : m.SameGiven m' := by
  have hframe := Machine.Steps.frame h
  constructor <;> rw [hframe]

/-- Reading a command line writes no file. -/
theorem Machine.options_sameGiven (m : Machine) (argv : List String) :
    m.SameGiven (m.options argv).2 := by
  obtain ⟨loadPath, heq⟩ := m.options_eq argv
  rw [heq]
  exact ⟨rfl, rfl⟩

namespace World

variable {w w' : World σ}

/-- No step of a run writes a file. -/
theorem Step.sameGiven (h : w.Step w') : w.machine.SameGiven w'.machine := by
  cases h with
  | machine h => exact Machine.Steps.sameGiven (.single h)
  | setup hunknown hstart =>
      cases (Vm.start_cases hstart).2 with
      | refused | badArguments => exact ⟨rfl, rfl⟩
      | @ran arguments =>
          have hsame := w.machine.setUp.2.options_sameGiven arguments
          exact ⟨hsame.files, hsame.setupCode⟩
  | _ => exact ⟨rfl, rfl⟩

/-- No change writes files, or changes what the interpreter reports when it comes up. -/
theorem Change.sameGiven (h : w.Change P w') : w.machine.SameGiven w'.machine := by
  cases h with
  | step h => exact h.sameGiven
  | probe hprobe h =>
      cases h with
      | options w argv => exact w.machine.options_sameGiven argv
      | _ => exact ⟨rfl, rfl⟩
  | @register kind run =>
      rw [setCallback_machine]
      exact .refl _
  | raising fault =>
      have hsame := Machine.Steps.sameGiven (w.machine.newException_steps fault)
      exact ⟨hsame.files, hsame.setupCode⟩
  | @raisingObject exception =>
      obtain ⟨m, heap, hsteps, heq⟩ := w.machine.fillBacktrace_eq exception
      have hsame := Machine.Steps.sameGiven hsteps
      have hfiles := congrArg Machine.files heq
      have hcode := congrArg Machine.setupCode heq
      exact ⟨hfiles.trans hsame.files, hcode.trans hsame.setupCode⟩
  | overlook =>
      rw [overlook_machine]
      exact .refl _
  | addProc | restack | withoutPending | park | resume => exact ⟨rfl, rfl⟩

/-! ### The heap -/

/-- With a change every object becomes only what it can. -/
theorem Change.evolves (h : w.Change P w') : w.machine.heap.Evolves w'.machine.heap := by
  cases h with
  | step h => exact h.evolves
  | addProc => exact .alloc _ _ _
  | @register kind run =>
      rw [setCallback_machine]
      exact .refl _
  | probe hprobe h =>
      cases h with
      | options w argv =>
          simp only [Machine.options_heap]
          exact .refl _
      | _ => exact .refl _
  | raising fault => exact w.machine.newException_evolves fault
  | @raisingObject exception => exact w.machine.fillBacktrace_evolves exception
  | overlook =>
      rw [overlook_machine]
      exact .refl _
  | restack | withoutPending | park | resume => exact .refl _

/-- **What the interpreter's steps, new procs and the backtraces of exceptions leave true of the objects
is left true by every change.** -/
theorem Change.keeps_heap {Kept : Heap → Prop}
    (hstep : ∀ {m m' : Machine}, m.Step m' → Kept m.heap → Kept m'.heap)
    (hproc : ∀ {h : Heap} (code : Nat), Kept h →
      Kept (h.alloc CoreClass.procClass.value (.proc code)).2)
    (htrace : ∀ {h : Heap} {exception message backtrace : Value} (trace : Value),
      h.body? exception = some (.exception message backtrace) → Kept h →
        Kept (h.setBody exception (.exception message trace)))
    (h : w.Change P w') (hw : Kept w.machine.heap) : Kept w'.machine.heap := by
  have hsteps : ∀ {m m' : Machine}, m.Steps m' → Kept m.heap → Kept m'.heap := by
    intro m m' hsteps hm
    induction hsteps with
    | refl => exact hm
    | tail _ last ih => exact hstep last ih
  cases h with
  | step h =>
      cases h with
      | machine h => exact hstep h hw
      | setup hunknown hstart =>
          cases (Vm.start_cases hstart).2 with
          | refused | badArguments => exact hw
          | ran =>
              simp only [Machine.options_heap]
              exact hw
      | learn | record | clearErrors | remember | boxed | unboxed | cleanUp => exact hw
  | addProc => exact hproc _ hw
  | @register kind run =>
      rw [setCallback_machine]
      exact hw
  | probe hprobe h =>
      cases h with
      | options w argv =>
          simp only [Machine.options_heap]
          exact hw
      | _ => exact hw
  | raising fault =>
      show Kept (w.machine.newException fault).2.heap
      exact hsteps (w.machine.newException_steps fault) hw
  | @raisingObject exception =>
      show Kept (w.machine.fillBacktrace exception).heap
      unfold Machine.fillBacktrace
      split
      · rename_i message backtrace hbody
        split
        · exact htrace _ (Machine.backtrace_body? hbody) (hsteps w.machine.backtrace_steps hw)
        · exact hw
      · exact hw
  | overlook =>
      rw [overlook_machine]
      exact hw
  | restack | withoutPending | park | resume => exact hw

/-- What a run has found in the heap is there still, and has become what it can. -/
theorem Reaches.evolves (h : w.Reaches P w') : w.machine.heap.Evolves w'.machine.heap := by
  induction h with
  | refl => exact .refl _
  | tail _ last ih => exact ih.trans last.evolves

end World

/-! ### Operations -/

namespace Vm

variable {α : Type} {r : Reentry σ}

/-- Making sure that the interpreter is up is a run to the world after it. -/
theorem reaches_of_ensureSetup {w w' : World σ}
    (hup : (ensureSetup : Checked σ Unit).run w = .ok (.ok ()) w') : w.Reaches P w' := by
  rcases step_of_ensureSetup hup with rfl | hstep
  · exact .refl
  · exact (World.Change.step hstep).reaches

/-- Operations take no object away. -/
theorem evolves_settled (hr : r.Follows AnyProbe) {operation : Checked σ α}
    (h : Stepwise r (Closure.Uses AnyProbe) operation) (w : World σ) :
    w.machine.heap.Evolves (Outcome.world (settled r operation w)).machine.heap := by
  have htold := h.told Course.operationRules hr.told fun task _ => follows_perform hr task
  have hsettles := settles_settled hr fun u hu => ToldChecked.checkedAt hu (htold u)
  exact (hsettles w w.hostCode_anyProbe).follows.reaches.evolves

/-- Describing an exception takes no object away. -/
theorem evolves_report (hr : r.Follows AnyProbe) (exception : Value) (w : World σ) :
    w.machine.heap.Evolves (Outcome.world (report r exception w)).machine.heap := by
  have htold := told_report Course.operationRules (fun task _ => follows_perform hr task) exception
  exact (htold w w.hostCode_anyProbe).reaches.evolves

/-- Making an error of a jump takes no object away. -/
theorem evolves_surfaced (hr : r.Follows AnyProbe) (jump : Jump) (w : World σ) :
    w.machine.heap.Evolves
      (Outcome.world ((Except.error <$> surface r jump : Eval σ (Except Error α)) w)).machine.heap := by
  have hreport := evolves_report hr w.machine.errinfo w.withoutPending
  simp only [map_eq_pure_bind, bind_apply, surface_apply]
  cases w.parked with
  | some p => exact .refl _
  | none =>
      by_cases hnil : w.machine.errinfo = Value.nil
      · simp only [if_pos hnil]
        exact .refl _
      · simp only [if_neg hnil]
        cases hrun : report r w.machine.errinfo w.withoutPending with
        | ok found w₁ =>
            rw [hrun] at hreport
            exact hreport
        | error exit w₁ =>
            rw [hrun] at hreport
            exact hreport

end Vm

end EmbeddedRuby
