import EmbeddedRuby.Host.Program
import EmbeddedRuby.Machine.Fault
import EmbeddedRuby.Machine.State

/-!
# Running: the world and the ways to leave a call

A `World` is the interpreter together with what the host keeps on its side of the border: the state
of the interpreter's life, the numbers of names that were looked up, the history of errors, the
bodies of its procs, its callbacks, a panic that waits to be taken up again, and the memory of its
programs.

`Eval` is the type of everything that runs.  A run ends with a value or with an `Exit`: a `Jump`,
which the interpreter knows how to stop, a panic of the host's, which it lets through, or because
there is no way on, which nothing stops.  Whatever happens, the world is as the run left it.

* `protect` stops every jump and puts the stacks of frames and blocks back as they were.
* `iterate` stops the breaks that are meant for one iteration.
* `catchPanic` stops panics and nothing else; it leaves the stacks alone.
-/

namespace EmbeddedRuby

/-- A non-local exit. -/
inductive Jump where
  /-- End the iteration with this number, or whatever is running if there is none. -/
  | breakTo (target : Option Nat) (value : Value)
  | raised (exception : Value)
deriving DecidableEq, Repr

/-- The number by which the kind of a jump is reported. -/
def Jump.tag : Jump → Int
  | breakTo .. => 2
  | raised _ => 6

/-- How a run ends without a value. -/
inductive Exit where
  | jump (jump : Jump)
  | panic (panic : Panic)
  /-- There is no way on: the bound on nested calls or on rounds was reached, or code of the host's
  was to run that is not there any more. -/
  | exhausted
deriving DecidableEq, Repr

/-- What runs when the interpreter calls a block or proc of the host's. -/
inductive Callback (σ : Type) where
  /-- The body that the host handed over. -/
  | closures
  /-- One callback for all bodies. -/
  | custom (run : CallbackInput → Program σ .callback)

/-- What becomes of a panic in a callback. -/
inductive PanicEvent where
  /-- It waits until the interpreter has been left. -/
  | parked (panic : Panic)
  /-- A quiet task has ended while it waited, and nobody took it up. -/
  | overlooked (panic : Panic)
  /-- It goes on, outside the interpreter. -/
  | resumed (panic : Panic)
deriving DecidableEq, Repr

/-- The interpreter and the host's side of the border. -/
structure World (σ : Type) where
  machine : Machine := Machine.boot
  state : VmState := .unknown
  /-- The numbers of the names that were looked up. -/
  ids : Table String SymbolId := {}
  history : History := History.ofCapacity History.defaultCapacity
  /-- The bodies of the procs made by the host. -/
  procs : Array (Closure σ) := #[]
  /-- The roots that keep these procs alive, the latest first. -/
  procRoots : List Nat := []
  /-- The roots that the host holds, the latest first.  What each of them keeps alive stands in the
  host's own memory. -/
  boxes : List Nat := []
  blockCallback : Option (Callback σ) := none
  procCallback : Option (Callback σ) := none
  /-- A panic that waits until the interpreter has been left. -/
  parked : Option Panic := none
  /-- What has become of the panics in callbacks, the latest first.  No run looks at it; it is there
  to say what happened in a run. -/
  panicLog : List PanicEvent := []
  /-- The place of the next root. -/
  nextRoot : Nat := 0
  memory : σ

/-- What runs for blocks or for procs. -/
def World.callback {σ : Type} (w : World σ) : CallbackKind → Option (Callback σ)
  | .block => w.blockCallback
  | .proc => w.procCallback

/-- The world after a panic in a callback has been put aside. -/
def World.park {σ : Type} (w : World σ) (p : Panic) : World σ :=
  { w with parked := some p, panicLog := .parked p :: w.panicLog }

/-- The world after the panic that waits, if there is one, has been passed over. -/
def World.overlook {σ : Type} (w : World σ) : World σ :=
  match w.parked with
  | some p => { w with panicLog := .overlooked p :: w.panicLog }
  | none => w

/-- The world after the panic that waits has been taken up again. -/
def World.resume {σ : Type} (w : World σ) (p : Panic) : World σ :=
  { w with parked := none, panicLog := .resumed p :: w.panicLog }

/-- A run that gives an `α`. -/
abbrev Eval (σ α : Type) := EStateM Exit (World σ) α

/-- The oldest `depth` entries of a stack whose latest entry stands first. -/
def truncate {α : Type} (depth : Nat) (stack : List α) : List α :=
  stack.drop (stack.length - depth)

namespace Machine

/-- A new exception for a fault. -/
def newException (m : Machine) (fault : Fault) : Value × Machine :=
  let (message, m) := m.newText fault.message
  let (trace, m) := m.backtrace
  m.alloc fault.cls.value (.exception message trace)

/-- The machine in which an exception without a backtrace has the present one. -/
def fillBacktrace (m : Machine) (exception : Value) : Machine :=
  match m.heap.body? exception with
  | some (.exception message backtrace) =>
    if backtrace = Value.nil then
      let (trace, m) := m.backtrace
      { m with heap := m.heap.setBody exception (.exception message trace) }
    else m
  | _ => m

/-- The machine whose stacks have the depths that they have in `before`. -/
def restoreStacks (m before : Machine) : Machine :=
  { m with
    frames := truncate before.frames.length m.frames
    yields := truncate before.yields.length m.yields }

def pushFrame (m : Machine) (file label : String) (line : Nat) : Machine :=
  { m with frames := ⟨file, line, label⟩ :: m.frames }

/-- The machine with another line in the innermost frame. -/
def setLine (m : Machine) (line : Nat) : Machine :=
  match m.frames with
  | frame :: rest => { m with frames := { frame with line } :: rest }
  | [] => m

end Machine

namespace Eval

variable {σ α : Type}

def machine : Eval σ Machine := do
  return (← get).machine

/-- Do something to the interpreter and give its answer. -/
def onMachine (f : Machine → α × Machine) : Eval σ α :=
  modifyGet fun w => ((f w.machine).1, { w with machine := (f w.machine).2 })

/-- Do something to the interpreter. -/
def changeMachine (f : Machine → Machine) : Eval σ Unit :=
  modify fun w => { w with machine := f w.machine }

/-- Stop because there is no way on. -/
def exhausted : Eval σ α :=
  throw .exhausted

/-- Fail with a bug. -/
def crash (message : String) : Eval σ α :=
  throw (.panic ⟨message⟩)

def newText (text : String) : Eval σ Value :=
  onMachine fun m => m.newText text

def intern (name : String) : Eval σ SymbolId :=
  onMachine fun m => m.intern name

/-- The text of a string; empty for anything else. -/
def textOf (v : Value) : Eval σ String := do
  return Utf8.stringLossy (((← machine).heap.bytes? v).getD [])

def pending : Eval σ Value := do
  return (← machine).errinfo

def setPending (v : Value) : Eval σ Unit :=
  changeMachine fun m => { m with errinfo := v }

/-- Leave with an exception, which is pending from now on. -/
def throwRaised (exception : Value) : Eval σ α := do
  setPending exception
  throw (.jump (.raised exception))

/-- Raise an exception for a fault. -/
def raise (fault : Fault) : Eval σ α := do
  throwRaised (← onMachine fun m => m.newException fault)

/-- Raise an object, which has to be an exception; it keeps the backtrace that it has. -/
def raiseObject (exception : Value) : Eval σ α := do
  if (← machine).heap.isKindOf exception CoreClass.exception.value then
    changeMachine fun m => m.fillBacktrace exception
    throwRaised exception
  else raise .exceptionExpected

/-- Leave the innermost block that is running. -/
def breakOut (value : Value) : Eval σ α := do
  throw (.jump (.breakTo ((← machine).yields.head?.join) value))

/-- Run `action`; a jump out of it is stopped and given as a result, with the stacks restored. -/
def protect (action : Eval σ α) : Eval σ (Except Jump α) := fun w =>
  match action w with
  | .ok a w' => .ok (.ok a) w'
  | .error (.jump jump) w' =>
    .ok (.error jump) { w' with machine := w'.machine.restoreStacks w.machine }
  | .error exit w' => .error exit w'

/-- Run `action`; a break to `target` ends it with the value of the break. -/
def iterate (target : Nat) (action : Eval σ Value) : Eval σ Value := fun w =>
  match action w with
  | .error (.jump (.breakTo (some goal) value)) w' =>
    if goal = target then
      .ok value { w' with machine := w'.machine.restoreStacks w.machine }
    else .error (.jump (.breakTo (some goal) value)) w'
  | result => result

/-- Run `action`; a panic in it is stopped and given as a result. -/
def catchPanic (action : Eval σ α) : Eval σ (Answer α) := fun w =>
  match action w with
  | .ok a w' => .ok (.ok a) w'
  | .error (.panic p) w' => .ok (.error p) w'
  | .error exit w' => .error exit w'

/-- A number for a new iteration. -/
def newTarget : Eval σ Nat :=
  onMachine fun m => (m.lastTarget + 1, { m with lastTarget := m.lastTarget + 1 })

end Eval

end EmbeddedRuby
