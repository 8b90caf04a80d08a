import EmbeddedRuby.Builtin.Run
import EmbeddedRuby.Machine.Loader

/-!
# Performing tasks and calling methods

`perform` is what each `Task` does, `dispatch` how a method is found and run, and `Routine.run` how
a method of the host's runs.  All are over a `Reentry`, so they say what one level of calls does.
-/

namespace EmbeddedRuby

open Eval

variable {σ : Type} (r : Reentry σ)

/-- Perform a task. -/
def perform (task : Task) : Eval σ task.Result :=
  match task with
  | .load path wrap => do
    Loader.loadObject r path wrap
    return Value.nil
  | .intern name => do
    changeMachine fun m => { m with internCalls := m.internCalls + 1 }
    intern name
  | .constant module id => r.constant module id false
  | .constantAt module id => r.constant module id true
  | .classVar cls id => classVar cls id
  | .call receiver method args kwSplat => r.send { receiver, method, args, kwSplat }
  | .callWithProc receiver method args proc => do
    if proc = Value.nil then r.send { receiver, method, args }
    else
      let target ← newTarget
      iterate target (r.send { receiver, method, args, block := .proc proc target })
  | .callWithBareBlock receiver method args => do
    let target ← newTarget
    iterate target (r.send { receiver, method, args, block := .host none target })
  | .callProc proc args block => r.callProc proc args none block
  | .keywordHash pairs =>
    onMachine fun m => m.make (.hash (pairs.map fun pair => (Value.ofSymbol pair.1, pair.2)))
  | .toUnsigned value => r.toUnsigned value
  | .toSigned value => do r.toLong (← r.toInteger value)
  | .toDouble value => do Reentry.toDouble (← r.toFloat value)
  | .inspectBytes value => do bytesOf (← r.inspectString value)
  | .stringBytes value => do bytesOf (← r.stringOf value)
  | .integer value => r.toInteger value
  | .float value => r.toFloat value
  | .long value => r.toLong value
  | .unsignedLong value => r.toUnsignedLong value
  | .doubleOf value => Reentry.toDouble value
  | .inspect value => r.inspectString value
  | .string value => r.stringOf value
  | .bytes value => bytesOf value
  | .storeInHash hash key value => storeInHash hash key value
  | .floatNumber value => do return ((← machine).heap.float? value).getD (Double.zero false)
  | .isNegative value => do return ((← machine).heap.int? value).any (· < 0)
  | .raiseTypeError message => raise (.typeError message)
  | .raiseRuntimeError message => raise (.runtimeError message)
  | .raise exception => raiseObject exception
  | .breakOut value => breakOut value
  | .panic message => crash message

/-- Call a method with a block of the host's. -/
def callWithClosure (receiver : Value) (method : SymbolId) (args : List Value)
    (body : Closure σ) : Eval σ Value := do
  let target ← newTarget
  iterate target (r.send { receiver, method, args, block := .host (some body) target })

/-- Run a method of the host's, which belongs to `call`. -/
def Routine.run (call : Call σ) : Routine → Eval σ Value
  | .done value => return value
  | .panic message => crash message
  | .perform task next => do Routine.run call (next (← EmbeddedRuby.perform r task))
  | .send receiver method args next => do
    Routine.run call (next (← r.sendNamed receiver method args))
  | .yield args next => do Routine.run call (next (← r.yieldBlock call args))
  | .make datum next => do Routine.run call (next (← onMachine fun m => m.make datum))

/-- A call as a method of the host's sees it. -/
def Call.toInvocation (call : Call σ) : Invocation where
  receiver := call.receiver
  method := call.method
  args := call.args
  kwSplat := call.kwSplat
  blockGiven := call.block.isGiven

/-- Find the method of a call and run it. -/
def dispatch (call : Call σ) : Eval σ Value := do
  let m ← machine
  match m.findMethod (m.heap.classOf call.receiver) call.method with
  | some (.builtin b) => b.run r call
  | some (.routine body) => Routine.run r call (body call.toInvocation)
  | none =>
    raise (.undefinedMethod (m.symbols.name call.method) (m.describe call.receiver))

end EmbeddedRuby
