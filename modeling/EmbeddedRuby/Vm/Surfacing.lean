import EmbeddedRuby.Machine.Perform
import EmbeddedRuby.Text.Layout

/-!
# From non-local exits to errors

Every task of the host's runs behind a barrier (`guarded`).  The first one that ends in a jump ends
the operation that it belongs to, and then `surface` makes an `Error` of what happened and puts it in
the history:

* if no exception is pending, the jump was a break, and the error is the tag of the jump;
* if one is pending, it is cleared, and the error is its description and its backtrace;
* if a panic of the host's was parked, it is taken up in either case and there is no error.

Describing an exception calls its methods, which may fail in turn.  Such failures are quiet: they
leave nothing pending and nothing in the history, and cost only that part of the description.

A `Checked` computation is an operation up to that point: it gives a value, or is refused with an
error that is in the history already, or has been left by a jump.  `settled` is the whole operation.
-/

namespace EmbeddedRuby

/-- Why an operation has no value. -/
inductive Failure where
  /-- The host's side found fault with it. -/
  | refused (error : Error)
  /-- A task of its was left by a jump. -/
  | exited (jump : Jump)
deriving DecidableEq, Repr

/-- An operation, up to the error that a jump is made into. -/
abbrev Checked (σ α : Type) := ExceptT Failure (Eval σ) α

namespace Vm

open Eval

variable {σ : Type} (r : Reentry σ)

/-- Put an error in the history and hand it back. -/
def record (error : Error) : Eval σ Error := do
  modify fun w => { w with history := w.history.record error }
  return error

/-- Fail with an error that goes into the history. -/
def fail {α : Type} (error : Error) : Checked σ α := do
  throw (.refused (← ExceptT.lift (record error)))

/-- Go on with the panic that waits, if there is one. -/
def resumeParked : Eval σ Unit := do
  match (← get).parked with
  | none => return
  | some p =>
    modify fun w => w.resume p
    throw (.panic p)

/-- Perform a task for its result alone; if it ends in a jump, nothing is left pending. -/
def quietly (task : Task) : OptionT (Eval σ) task.Result := do
  match ← OptionT.lift (protect (perform r task)) with
  | .ok result => return result
  | .error _ =>
    OptionT.lift (setPending Value.nil)
    OptionT.lift (modify World.overlook)
    failure

/-- The number of a name, from those that were looked up if it is there. -/
def quietName (name : String) : OptionT (Eval σ) SymbolId := do
  match (← get).ids.get? name with
  | some id => return id
  | none =>
    let id : SymbolId ← quietly r (.intern name)
    modify fun w => { w with ids := w.ids.insert name id }
    return id

/-- How an exception is shown. -/
def shown (exception : Value) : OptionT (Eval σ) String := do
  let bytes : List UInt8 ← quietly r (.inspectBytes exception)
  return Utf8.stringLossy bytes

/-- The lines of the backtrace of an exception. -/
def backtraceLines (exception : Value) : OptionT (Eval σ) (List String) := do
  let backtrace ← quietName r "backtrace"
  let join ← quietName r "join"
  let lines : Value ← quietly r (.call exception backtrace [] false)
  if (← OptionT.lift machine).heap.typeOf lines = .array then
    let separator ← OptionT.lift (newText "\n")
    let joined : Value ← quietly r (.call lines join [separator] false)
    let bytes : List UInt8 ← quietly r (.stringBytes joined)
    return (Text.lines (Utf8.decodeLossy bytes)).map String.ofList
  else failure

/-- What stands for the description of an exception that cannot be shown. -/
def unprintable : String := "#<unprintable exception>"

/-- An exception as text, as far as it can be had. -/
def report (exception : Value) : Eval σ ExceptionReport := do
  let description ← (shown r exception).run
  let backtrace ← (backtraceLines r exception).run
  return ⟨description.getD unprintable, backtrace.getD []⟩

/-- The error for a jump out of a task, in the history. -/
def surface (jump : Jump) : Eval σ Error := do
  let exception ← pending
  if exception = Value.nil then
    resumeParked
    record (.jump jump.tag)
  else
    setPending Value.nil
    resumeParked
    record (.exception (← report r exception))

/-- Run `action` behind the barrier. -/
def guarded {α : Type} (action : Eval σ α) : Checked σ α := do
  match ← ExceptT.lift (protect action) with
  | .ok a => return a
  | .error jump => throw (.exited jump)

/-- Perform a task behind the barrier. -/
def attempt (task : Task) : Checked σ task.Result :=
  guarded (perform r task)

/-- An operation as a whole: its value, or the error for what kept it from having one. -/
def settled {α : Type} (operation : Checked σ α) : Eval σ (Except Error α) := do
  match ← operation.run with
  | .ok a => return .ok a
  | .error (.refused error) => return .error error
  | .error (.exited jump) => return .error (← surface r jump)

end Vm

end EmbeddedRuby
