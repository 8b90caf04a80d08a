import EmbeddedRuby.Proofs.Life
import Mathlib.Logic.Relation

/-!
# The course of a run

Much of what there is to say about the interpreter is not about what a method computes but about
what a run can do to the world: which stacks it leaves behind, what stays pending, what becomes of a
panic.  Such a property has to be shown for every function that runs, and the functions call each
other through the host.  This module therefore says once what a run can do at all.

A **course** leads from a world to a world and has an ending: a value, or the exit that left it.
`Course` generates the courses from single steps (`Machine.Step`, `World.Step`) and from the few
ways in which a part of a run is enclosed in another: a block, an iteration, a script, a callback of
the host's, a barrier.  That every run follows a course is shown in `EmbeddedRuby.Proofs.Follows`;
a property of all runs is then an induction over courses, with one case for each of these ways.

What the host's own code may do is a parameter: `Probe`s, which reach past all checks, are allowed
as far as `P` says so (`Program.Uses`, `World.HostCode`).  With no probes allowed, the host uses
operations only.

The first such properties stand at the end: the host's code stays within what `P` allows
(`Course.hostCode`), and a callback that is installed stays installed (`Course.callback_kept`).
-/

namespace EmbeddedRuby

variable {σ : Type}

/-- How a part of a run ends. -/
inductive Ending where
  | value
  | exit (exit : Exit)
deriving DecidableEq

/-- The ending with a jump. -/
abbrev Ending.jump (jump : Jump) : Ending := .exit (.jump jump)

/-- The ending with an exception. -/
abbrev Ending.raised (exception : Value) : Ending := .jump (.raised exception)

/-- The ending with a panic. -/
abbrev Ending.panic (p : Panic) : Ending := .exit (.panic p)

namespace Eval

variable {α : Type}

/-- The ending of a run. -/
def Outcome.ending : Outcome σ α → Ending
  | .ok _ _ => .value
  | .error exit _ => .exit exit

/-- The world after a run. -/
def Outcome.world : Outcome σ α → World σ
  | .ok _ w => w
  | .error _ w => w

/-- What ends with a value terminates. -/
theorem terminates_of_ending {action : Eval σ α} {w : World σ}
    (h : Outcome.ending (action w) = .value) : action.Terminates w := by
  intro exit w' hexit
  rw [hexit] at h
  cases h

end Eval

/-! ### What the host's code may do -/

/-- The program and all code that it hands over use no probes but those that `P` allows. -/
def Program.Uses (P : Probe → Prop) : {role : Role} → Program σ role → Prop
  | _, .done _ => True
  | _, .panic _ => True
  | _, .recall next => ∀ memory, Program.Uses P (next memory)
  | _, .remember _ next => Program.Uses P next
  | _, .ask _ next => ∀ answer, Program.Uses P (next answer)
  | _, .probe request next => P request ∧ ∀ answer, Program.Uses P (next answer)
  | _, .callWithBlock _ _ _ body next =>
    (∀ args, Program.Uses P (body args)) ∧ ∀ answer, Program.Uses P (next answer)
  | _, .newProc body next =>
    (∀ args, Program.Uses P (body args)) ∧ ∀ answer, Program.Uses P (next answer)
  | _, .register _ callback next =>
    (∀ input, Program.Uses P (callback input)) ∧ ∀ answer, Program.Uses P (next answer)

/-- No probe is allowed: the host uses operations only. -/
def NoProbes : Probe → Prop := fun _ => False

/-- Every probe is allowed. -/
def AnyProbe : Probe → Prop := fun _ => True

/-- The body of a block or a proc uses no probes but those that `P` allows. -/
def Closure.Uses (P : Probe → Prop) (body : Closure σ) : Prop :=
  ∀ args, Program.Uses P (body args)

/-- The code that a world keeps for the host uses no probes but those that `P` allows. -/
structure World.HostCode (P : Probe → Prop) (w : World σ) : Prop where
  procs : ∀ body ∈ w.procs, Closure.Uses P body
  callbacks : ∀ kind run, w.callback kind = some (.custom run) →
    ∀ input, Program.Uses P (run input)

/-- Where every probe is allowed a program uses none but these. -/
theorem Program.uses_anyProbe {role : Role} (program : Program σ role) :
    program.Uses AnyProbe := by
  induction program with
  | done | panic => trivial
  | «recall» next ih | ask operation next ih => exact ih
  | remember memory next ih => exact ih
  | probe request next ih => exact ⟨trivial, ih⟩
  | callWithBlock receiver method args body next ihbody ih | newProc body next ihbody ih
  | register kind callback next ihbody ih => exact ⟨ihbody, ih⟩

/-- Where every probe is allowed all code of the host's uses none but these. -/
theorem World.hostCode_anyProbe (w : World σ) : w.HostCode AnyProbe :=
  ⟨fun body _ args => (body args).uses_anyProbe, fun _ run _ input => (run input).uses_anyProbe⟩

/-! ### Single steps -/

/-- The contents of a plain instance: neither a number, nor a module, nor a proc. -/
def Body.IsInstance : Body → Prop
  | .string _ | .array _ | .hash _ | .plain | .exception .. => True
  | .float _ | .bignum _ | .ofModule _ | .proc _ => False

/-- What the interpreter can do to its own state in one step. -/
inductive Machine.Step : Machine → Machine → Prop
  | string (m : Machine) (bytes : List UInt8) : Step m (m.newString bytes).2
  | float (m : Machine) (x : Double) : Step m (m.newFloat x).2
  | integer (m : Machine) (n : Int) : Step m (m.newInteger n).2
  | array (m : Machine) (items : List Value) : Step m (m.newArray items).2
  | module (m : Machine) (name : Option String) (superclass : Option Value) :
      Step m (m.newModule name superclass).2
  | instance (m : Machine) (cls : Value) {body : Body} (hbody : body.IsInstance) :
      Step m (m.alloc cls body).2
  | intern (m : Machine) (name : String) : Step m (m.intern name).2
  | countIntern (m : Machine) : Step m { m with internCalls := m.internCalls + 1 }
  | setConstant (m : Machine) (module : Value) (id : SymbolId) (value : Value) :
      Step m (m.setConstant module id value)
  | setClassVar (m : Machine) (cls : Value) (id : SymbolId) (value : Value) :
      Step m { m with heap := m.heap.setClassVar cls id value }
  | storeInHash (m : Machine) (hash key value : Value) : Step m (m.storeInHash hash key value)
  | pushItems (m : Machine) (array : Value) (items : List Value) :
      Step m { m with heap := Methods.pushItems m.heap array items }
  | newTarget (m : Machine) : Step m { m with lastTarget := m.lastTarget + 1 }
  | print (m : Machine) (text : String) : Step m (m.print text)

/-- Any number of steps. -/
abbrev Machine.Steps : Machine → Machine → Prop :=
  Relation.ReflTransGen Machine.Step

/-- Texts are made by as many steps. -/
theorem Machine.newTexts_steps (m : Machine) (texts : List String) :
    m.Steps (m.newTexts texts).2 := by
  induction texts generalizing m with
  | nil => exact .refl
  | cons text rest ih => exact .head (.string m _) (ih (m.newText text).2)

/-- A backtrace is made by the steps that make its lines, and one more. -/
theorem Machine.backtrace_steps (m : Machine) : m.Steps m.backtrace.2 :=
  .tail (m.newTexts_steps (m.frames.map Frame.render)) (.array _ _)

/-- Making an exception takes no steps but those that make its parts. -/
theorem Machine.newException_steps (m : Machine) (fault : Fault) :
    m.Steps (m.newException fault).2 := by
  have hmessage : m.Steps (m.newText fault.message).2 := .single (.string m _)
  exact .tail (hmessage.trans (Machine.backtrace_steps _)) (.instance _ _ trivial)

namespace World

/-- The world with something done to the interpreter. -/
abbrev onMachine (w : World σ) (f : Machine → Machine) : World σ :=
  { w with machine := f w.machine }

/-- The world after a name was interned for the host, which knows its number from now on. -/
def learn (w : World σ) (name : String) : World σ :=
  let counted := { w.machine with internCalls := w.machine.internCalls + 1 }
  { w with
    machine := (counted.intern name).2
    ids := w.ids.insert name (counted.intern name).1 }

/-- The world with one more root. -/
def root (w : World σ) : World σ :=
  { w with
    nextRoot := w.nextRoot + 1
    machine := { w.machine with roots := w.nextRoot :: w.machine.roots } }

/-- The world with one more root, which the host holds. -/
def boxed (w : World σ) : World σ :=
  { w.root with boxes := w.nextRoot :: w.boxes }

/-- The world in which the host has given up a root that it held. -/
def unboxed (w : World σ) (root : Nat) : World σ :=
  { w with
    boxes := w.boxes.erase root
    machine :=
      { w.machine with
        roots := if w.state = .up then w.machine.roots.erase root else w.machine.roots } }

/-- The world with a proc for a body of the host's, and a root for the proc. -/
def addProc (w : World σ) (body : Closure σ) : World σ :=
  let code := w.procs.size
  let made := (w.onMachine fun m => (m.alloc CoreClass.procClass.value (.proc code)).2).root
  { made with procs := made.procs.push body, procRoots := w.nextRoot :: made.procRoots }

/-- What bringing the interpreter up has led to. -/
def stateAfter : Except Error Unit → VmState
  | .ok () => .up
  | .error error => .failed error

/-- The world after the interpreter was taken down. -/
def takenDown (w : World σ) : World σ :=
  { w with machine := (w.machine.cleanUp 0).2, state := .cleanedUp, ids := {}, procs := #[], procRoots := [] }

/-- The names of the methods by which the backtrace of an exception is had as text. -/
def describingNames : List String :=
  ["backtrace", "join"]

/-- What the host's side of the border can do in one step.  It asks for the number of a name only
while the interpreter is up, or to describe an exception. -/
inductive Step : World σ → World σ → Prop
  | machine (w : World σ) {m : Machine} (h : w.machine.Step m) : Step w { w with machine := m }
  | record (w : World σ) (error : Error) : Step w { w with history := w.history.record error }
  | clearErrors (w : World σ) : Step w { w with history := w.history.clear }
  | learn (w : World σ) {name : String} (hnew : w.ids.get? name = none)
      (hasked : w.state = .up ∨ name ∈ describingNames) : Step w (w.learn name)
  | remember (w : World σ) (memory : σ) : Step w { w with memory }
  | boxed {w : World σ} (hup : w.state = .up) : Step w w.boxed
  | unboxed (w : World σ) {root : Nat} (hheld : root ∈ w.boxes) : Step w (w.unboxed root)
  | setup {w w' : World σ} {info : BootInfo} {result : Except Error Unit}
      (hunknown : w.state = .unknown) (hstart : (Vm.start info).run w = .ok result w') :
      Step w { w' with state := stateAfter result }
  | cleanUp (w : World σ) (hup : w.state = .up) : Step w w.takenDown

/-- The world in which an exception is pending that was made for a fault. -/
def raising (w : World σ) (fault : Fault) : World σ :=
  w.onMachine fun m =>
    { (m.newException fault).2 with errinfo := (m.newException fault).1 }

/-- The world in which an exception is pending that was there before. -/
def raisingObject (w : World σ) (exception : Value) : World σ :=
  w.onMachine fun m => { m.fillBacktrace exception with errinfo := exception }

/-- The world in which no exception is pending. -/
def withoutPending (w : World σ) : World σ :=
  w.onMachine fun m => { m with errinfo := Value.nil }

/-- The world inside a block out of which a break goes to `target`. -/
def enterBlock (w : World σ) (target : Option Nat) : World σ :=
  w.onMachine fun m => { m with yields := target :: m.yields }

/-- The world after a block that was entered in `before`. -/
def leaveBlock (w before : World σ) : World σ :=
  w.onMachine fun m => { m with yields := truncate before.machine.yields.length m.yields }

/-- The world with the oldest `depth` frames. -/
def leaveBody (w : World σ) (depth : Nat) : World σ :=
  w.onMachine fun m => { m with frames := truncate depth m.frames }

end World

/-- What a probe can do to the world that an operation cannot. -/
inductive Probe.Step : Probe → World σ → World σ → Prop
  | setPending (w : World σ) (v : Value) :
      Step (.setPending v) w (w.onMachine fun m => { m with errinfo := v })
  | takePrinted (w : World σ) : Step .takePrinted w (w.onMachine fun m => { m with printed := [] })
  | options (w : World σ) (argv : List String) :
      Step (.options argv) w (w.onMachine fun m => (m.options argv).2)
  | define (w : World σ) (cls : Value) (name : String) (body : Invocation → Routine) :
      Step (.define cls name body) w (w.onMachine fun m => m.define cls name (.routine body))

/-! ### Courses -/

/-- The courses of runs, where the host uses the probes that `P` allows.  Where a script is being
run, `script` is the number of frames below its own. -/
inductive Course (P : Probe → Prop) :
    (script : Option Nat) → World σ → Ending → World σ → Prop
  /-- Nothing happens. -/
  | done (w : World σ) : Course P none w .value w
  | step {w w' : World σ} (h : w.Step w') : Course P none w .value w'
  | addProc {w : World σ} {body : Closure σ} (hup : w.state = .up)
      (hbody : Closure.Uses P body) : Course P none w .value (w.addProc body)
  /-- A callback fills an empty place. -/
  | register {w : World σ} {kind : CallbackKind} {run : CallbackInput → Program σ .callback}
      (hempty : w.callback kind = none) (hrun : ∀ input, Program.Uses P (run input)) :
      Course P none w .value (w.setCallback kind (.custom run))
  | probe {w w' : World σ} {probe : Probe} (hprobe : P probe) (h : probe.Step w w') :
      Course P none w .value w'
  /-- One part follows another. -/
  | seq {script : Option Nat} {w w₁ w₂ : World σ} {ending : Ending}
      (first : Course P script w .value w₁) (rest : Course P script w₁ ending w₂) :
      Course P script w ending w₂
  | raise (w : World σ) (fault : Fault) :
      Course P none w (.raised (w.machine.newException fault).1) (w.raising fault)
  | raiseObject {w : World σ} {exception : Value}
      (hexception : w.machine.heap.isKindOf exception CoreClass.exception.value) :
      Course P none w (.raised exception) (w.raisingObject exception)
  | breakOut (w : World σ) (value : Value) :
      Course P none w (.jump (.breakTo w.machine.yields.head?.join value)) w
  | crash (w : World σ) (p : Panic) : Course P none w (.panic p) w
  | exhausted (w : World σ) : Course P none w (.exit .exhausted) w
  /-- A block runs to its end. -/
  | block {w w₁ : World σ} {target : Option Nat}
      (inner : Course P none (w.enterBlock target) .value w₁) :
      Course P none w .value (w₁.leaveBlock w)
  /-- A block is left; panics do not leave blocks. -/
  | blockLeft {w w₁ : World σ} {target : Option Nat} {exit : Exit}
      (inner : Course P none (w.enterBlock target) (.exit exit) w₁)
      (hexit : ∀ p, exit ≠ .panic p) :
      Course P none w (.exit exit) w₁
  /-- A break ends the iteration that it is for. -/
  | iterate {w w₁ : World σ} {target : Nat} {value : Value}
      (inner : Course P none w (.jump (.breakTo (some target) value)) w₁) :
      Course P none w .value (w₁.restored w)
  /-- A panic of a callback is parked, and an exception raised in its place. -/
  | callback {w w₁ : World σ} {p : Panic} (inner : Course P none w (.panic p) w₁) :
      Course P none w (.raised ((w₁.park p).machine.newException .callbackPanicked).1)
        ((w₁.park p).raising .callbackPanicked)
  /-- A script runs to its end. -/
  | script {w w₁ : World σ} {file label : String}
      (inner : Course P (some w.machine.frames.length)
        (w.onMachine fun m => m.pushFrame file label 0) .value w₁) :
      Course P none w .value (w₁.leaveBody w.machine.frames.length)
  /-- A script is left. -/
  | scriptLeft {w w₁ : World σ} {file label : String} {exit : Exit}
      (inner : Course P (some w.machine.frames.length)
        (w.onMachine fun m => m.pushFrame file label 0) (.exit exit) w₁) :
      Course P none w (.exit exit) w₁
  /-- A script does what all runs do. -/
  | ordinary {base : Nat} {w w₁ : World σ} {ending : Ending}
      (inner : Course P none w ending w₁) : Course P (some base) w ending w₁
  | setLine {base : Nat} (w : World σ) (line : Nat) :
      Course P (some base) w .value (w.onMachine fun m => m.setLine line)
  | openBody {base : Nat} (w : World σ) (file label : String) (line : Nat) :
      Course P (some base) w .value (w.onMachine fun m => m.pushFrame file label line)
  | closeBody {base : Nat} (w : World σ) {depth : Nat} (hdepth : base < depth) :
      Course P (some base) w .value (w.leaveBody depth)
  /-- A jump is stopped at the barrier of an operation, which makes an error of it. -/
  | settled {w w₁ : World σ} {jump : Jump} (inner : Course P none w (.jump jump) w₁)
      (hparked : w₁.parked = none) :
      Course P none w .value (w₁.restored w).withoutPending
  /-- A jump is stopped at the barrier of an operation while a panic waits, which goes on. -/
  | resumed {w w₁ : World σ} {jump : Jump} {p : Panic} (inner : Course P none w (.jump jump) w₁)
      (hparked : w₁.parked = some p) :
      Course P none w (.panic p) ((w₁.restored w).withoutPending.resume p)
  /-- A jump is stopped at the barrier of a quiet task, and a panic that waits is passed over. -/
  | quiet {w w₁ : World σ} {jump : Jump} (inner : Course P none w (.jump jump) w₁) :
      Course P none w .value (w₁.restored w).withoutPending.overlook
  /-- A panic is given to the host's code that asked for what has panicked. -/
  | caught {w w₁ : World σ} {p : Panic} (inner : Course P none w (.panic p) w₁) :
      Course P none w .value w₁
  /-- A jump is stopped at the barrier of a probe. -/
  | attempt {w w₁ : World σ} {task : Task} {jump : Jump} (hprobe : P (.attempt task))
      (inner : Course P none w (.jump jump) w₁) :
      Course P none w .value (w₁.restored w)

/-! ### What the host's code may do is kept -/

/-- The host's code is in its procs and its callbacks. -/
theorem World.HostCode.of_eq {P : Probe → Prop} {w w' : World σ} (h : w.HostCode P)
    (hprocs : w'.procs = w.procs) (hblock : w'.blockCallback = w.blockCallback)
    (hproc : w'.procCallback = w.procCallback) : w'.HostCode P := by
  refine ⟨?_, ?_⟩
  · rw [hprocs]
    exact h.procs
  · intro kind run hrun
    apply h.callbacks kind run
    cases kind with
    | block => exact hblock.symm.trans hrun
    | proc => exact hproc.symm.trans hrun

/-- Filling the empty places of callbacks brings in no code of the host's. -/
theorem World.HostCode.fillCallbacks {P : Probe → Prop} {w : World σ} (h : w.HostCode P) :
    w.fillCallbacks.HostCode P := by
  refine ⟨h.procs, ?_⟩
  intro kind run hrun
  apply h.callbacks kind run
  cases kind with
  | block =>
      cases hb : w.blockCallback with
      | none => simp [World.callback, World.fillCallbacks, hb] at hrun
      | some c => simpa [World.callback, World.fillCallbacks, hb] using hrun
  | proc =>
      cases hp : w.procCallback with
      | none => simp [World.callback, World.fillCallbacks, hp] at hrun
      | some c => simpa [World.callback, World.fillCallbacks, hp] using hrun

/-- Where there are neither, there is no code of the host's. -/
theorem World.hostCode_bare {P : Probe → Prop} : World.bare.HostCode P := by
  refine ⟨?_, ?_⟩
  · intro body hbody
    exact absurd hbody (Array.not_mem_empty body)
  · intro kind run hrun
    cases kind <;> cases hrun

/-- No step of a run brings in code of the host's. -/
theorem World.Step.hostCode {P : Probe → Prop} {w w' : World σ} (h : w.Step w')
    (hw : w.HostCode P) : w'.HostCode P := by
  cases h with
  | machine | record | clearErrors | learn | remember | boxed | unboxed =>
      exact hw.of_eq rfl rfl rfl
  | setup hunknown hstart =>
      cases (Vm.start_cases hstart).2 with
      | refused => exact hw.of_eq rfl rfl rfl
      | badArguments | ran => exact hw.fillCallbacks.of_eq rfl rfl rfl
  | cleanUp hup =>
      exact ⟨by simp [World.takenDown], fun kind run hrun => hw.callbacks kind run hrun⟩

/-- A proc brings its body in, which has to be allowed. -/
theorem World.HostCode.addProc {P : Probe → Prop} {w : World σ} {body : Closure σ}
    (h : w.HostCode P) (hbody : Closure.Uses P body) : (w.addProc body).HostCode P := by
  refine ⟨?_, h.callbacks⟩
  intro other hmem
  rcases Array.mem_push.mp hmem with hold | rfl
  · exact h.procs other hold
  · exact hbody

/-- A custom callback brings its own code in. -/
theorem World.HostCode.setCallback {P : Probe → Prop} {w : World σ} {kind : CallbackKind}
    {run : CallbackInput → Program σ .callback} (h : w.HostCode P)
    (hrun : ∀ input, Program.Uses P (run input)) :
    (w.setCallback kind (.custom run)).HostCode P := by
  refine ⟨by cases kind <;> exact h.procs, ?_⟩
  intro other found hfound
  by_cases hsame : other = kind
  · have hset : (w.setCallback kind (.custom run)).callback other = some (.custom run) := by
      subst hsame
      cases other <;> rfl
    rw [hset] at hfound
    cases hfound
    exact hrun
  · have hkept : (w.setCallback kind (.custom run)).callback other = w.callback other := by
      cases kind <;> cases other <;> first | rfl | exact absurd rfl hsame
    exact h.callbacks other found (hkept ▸ hfound)

/-- Passing a panic over changes nothing but the log. -/
theorem World.overlook_eq (w : World σ) : ∃ panicLog, w.overlook = { w with panicLog } := by
  unfold World.overlook
  split
  · exact ⟨_, rfl⟩
  · exact ⟨w.panicLog, rfl⟩

/-- Passing a panic over does not concern the interpreter. -/
theorem World.overlook_machine (w : World σ) : w.overlook.machine = w.machine := by
  obtain ⟨panicLog, hoverlook⟩ := w.overlook_eq
  rw [hoverlook]

/-- Passing a panic over does not concern the host's code. -/
theorem World.HostCode.overlook {P : Probe → Prop} {w : World σ} (h : w.HostCode P) :
    w.overlook.HostCode P := by
  obtain ⟨panicLog, hoverlook⟩ := w.overlook_eq
  rw [hoverlook]
  exact h.of_eq rfl rfl rfl

/-- A run brings no code into the world that may do more than the host's code may. -/
theorem Course.hostCode {P : Probe → Prop} {script : Option Nat} {w w' : World σ}
    {ending : Ending} (h : Course P script w ending w') (hw : w.HostCode P) : w'.HostCode P := by
  induction h with
  | done | raise | raiseObject | breakOut | crash | exhausted | setLine | openBody | closeBody =>
      exact hw.of_eq rfl rfl rfl
  | step h => exact h.hostCode hw
  | addProc hup hbody => exact hw.addProc hbody
  | register hempty hrun => exact hw.setCallback hrun
  | probe hprobe h => cases h <;> exact hw.of_eq rfl rfl rfl
  | seq first rest ih₁ ih₂ => exact ih₂ (ih₁ hw)
  | block inner ih | script inner ih => exact (ih (hw.of_eq rfl rfl rfl)).of_eq rfl rfl rfl
  | blockLeft inner hexit ih => exact ih (hw.of_eq rfl rfl rfl)
  | scriptLeft inner ih => exact ih (hw.of_eq rfl rfl rfl)
  | iterate inner ih | callback inner ih => exact (ih hw).of_eq rfl rfl rfl
  | settled inner hparked ih | resumed inner hparked ih => exact (ih hw).of_eq rfl rfl rfl
  | attempt hprobe inner ih => exact (ih hw).of_eq rfl rfl rfl
  | quiet inner ih => exact World.HostCode.overlook ((ih hw).of_eq rfl rfl rfl)
  | ordinary inner ih | caught inner ih => exact ih hw

/-- No step of a run takes a callback away. -/
theorem World.Step.callback_kept {w w' : World σ} (h : w.Step w') {kind : CallbackKind}
    {callback : Callback σ} (hw : w.callback kind = some callback) :
    w'.callback kind = some callback := by
  cases h with
  | setup hunknown hstart =>
      have hfill : w.fillCallbacks.callback kind = some callback := by
        cases kind
        · exact congrArg (fun found => some (found.getD .closures)) hw
        · exact congrArg (fun found => some (found.getD .closures)) hw
      cases (Vm.start_cases hstart).2 with
      | refused => cases kind <;> exact hw
      | badArguments | ran => cases kind <;> exact hfill
  | _ => cases kind <;> exact hw

/-- A callback that is there stays. -/
theorem Course.callback_kept {P : Probe → Prop} {script : Option Nat} {w w' : World σ}
    {ending : Ending} (h : Course P script w ending w') {kind : CallbackKind}
    {callback : Callback σ} (hw : w.callback kind = some callback) :
    w'.callback kind = some callback := by
  induction h with
  | done | raise | raiseObject | breakOut | crash | exhausted | setLine | openBody | closeBody
  | addProc => cases kind <;> exact hw
  | step h => exact h.callback_kept hw
  | @register w place run hempty hrun =>
      cases place <;> cases kind <;>
        first | exact hw | exact absurd (hempty.symm.trans hw) (by simp)
  | probe hprobe h => cases h <;> cases kind <;> exact hw
  | seq first rest ih₁ ih₂ => exact ih₂ (ih₁ hw)
  | block inner ih | blockLeft inner hexit ih | script inner ih | scriptLeft inner ih
  | iterate inner ih | callback inner ih | settled inner hparked ih | resumed inner hparked ih
  | attempt hprobe inner ih | ordinary inner ih | caught inner ih => cases kind <;> exact ih hw
  | @quiet w w₁ jump inner ih =>
      obtain ⟨panicLog, hoverlook⟩ := (w₁.restored w).withoutPending.overlook_eq
      rw [hoverlook]
      cases kind <;> exact ih hw

end EmbeddedRuby
