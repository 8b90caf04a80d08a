import EmbeddedRuby.Builtin.Collection

/-!
# Running the interpreter's own methods

`Builtin.run` is what each of the interpreter's own methods does.
-/

namespace EmbeddedRuby.Builtin

open Eval Methods

variable {σ : Type}

/-- Run a method of the interpreter's own. -/
def run (r : Reentry σ) (b : Builtin) (call : Call σ) : Eval σ Value :=
  match b with
  | objectClass => do return (← machine).heap.classOf call.receiver
  | objectInspect => showPlain call
  | objectEqual => isSame call
  | objectNotEqual => notEqual r call
  | objectIsNil => return Value.ofBool false
  | objectIsA => isA call
  | objectRespondTo => respondTo r call
  | puts => putsAll r call
  | p => showAll r call
  | moduleName => pathOfModule call
  | moduleToS => do newText ((← machine).moduleName call.receiver)
  | moduleCaseEqual => do
    checkArity call 1 1
    return Value.ofBool ((← machine).heap.isKindOf (call.arg 0) call.receiver)
  | moduleConstGet => constGet r call
  | moduleClassVariableGet => classVariableGet r call
  | classNew => new r call
  | classSuperclass => do
    let data := (← machine).heap.module? call.receiver
    return (data.bind ModuleData.superclass).getD Value.nil
  | nilToS => newText ""
  | nilToA => onMachine fun m => m.newArray []
  | nilToI => return Value.ofFixnum 0
  | nilToF => ofNumber (.float (Double.zero false))
  | nilInspect => newText "nil"
  | nilIsNil => return Value.ofBool true
  | trueToS => newText "true"
  | falseToS => newText "false"
  | add => arithmetic .add call
  | sub => arithmetic .sub call
  | mul => arithmetic .mul call
  | div => arithmetic .div call
  | mod => arithmetic .mod call
  | negate => negated call
  | numberEqual => numbersEqual call
  | less => comparison r (· == .lt) call
  | greater => comparison r (· == .gt) call
  | lessEqual => comparison r (· != .gt) call
  | greaterEqual => comparison r (· != .lt) call
  | numberToS => numberText call
  | numberToF => numberAsFloat call
  | numberIsZero => isZero call
  | integerToI => return call.receiver
  | integerTimes => times r call
  | floatToI => do Reentry.integerPart (← floatOf call)
  | floatIsNan => do return Value.ofBool (← floatOf call).isNan
  | stringToS => return call.receiver
  | stringInspect => showString call
  | stringLength => Methods.stringLength call
  | stringPlus => joinStrings call
  | stringEqual => stringsEqual call
  | stringToI => stringAsInteger call
  | stringToF => stringAsFloat call
  | stringToSym => stringAsSymbol call
  | symbolToS => symbolText call
  | symbolToSym => return call.receiver
  | symbolInspect => showSymbol call
  | arrayEach => each r call
  | arrayMap => map r call
  | arrayPush => push call
  | arrayLength => Methods.arrayLength call
  | arrayFirst => first call
  | arrayLast => last call
  | arrayAt => itemAtArg r call
  | arrayJoin => join r call
  | arrayInspect => showArray r call
  | hashGet => Methods.hashGet call
  | hashSet => Methods.hashSet call
  | hashLength => Methods.hashLength call
  | hashKeys => Methods.hashKeys call
  | hashInspect => showHash r call
  | procCall => callReceiver r call
  | procToProc => return call.receiver
  | procIsLambda => return Value.ofBool false
  | exceptionMessage => r.sendNamed call.receiver "to_s" []
  | exceptionToS => exceptionText r call
  | exceptionInspect => showException r call
  | exceptionBacktrace => backtraceOf call

end EmbeddedRuby.Builtin
