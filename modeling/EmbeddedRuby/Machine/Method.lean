import EmbeddedRuby.Machine.Task
import EmbeddedRuby.Object.CoreClass

/-!
# Methods

A method is one of the interpreter's own (`Builtin`) or written by the host.  The host writes a
method as a function from an `Invocation` to a `Routine`: a tree of what the method asks the
interpreter to do, with a branch for each answer.  A routine ends with a value, and any of its
requests may end it with a non-local exit.

`builtinMethods` says under which names the classes have the interpreter's own methods.
-/

namespace EmbeddedRuby

/-- The interpreter's own methods. -/
inductive Builtin where
  | objectClass
  | objectInspect
  | objectEqual
  | objectNotEqual
  | objectIsNil
  | objectIsA
  | objectRespondTo
  | puts
  | p
  | moduleName
  | moduleToS
  | moduleCaseEqual
  | moduleConstGet
  | moduleClassVariableGet
  | classNew
  | classSuperclass
  | nilToS
  | nilToA
  | nilToI
  | nilToF
  | nilInspect
  | nilIsNil
  | trueToS
  | falseToS
  | add
  | sub
  | mul
  | div
  | mod
  | negate
  | numberEqual
  | less
  | greater
  | lessEqual
  | greaterEqual
  | numberToS
  | numberToF
  | numberIsZero
  | integerToI
  | integerTimes
  | floatToI
  | floatIsNan
  | stringToS
  | stringInspect
  | stringLength
  | stringPlus
  | stringEqual
  | stringToI
  | stringToF
  | stringToSym
  | symbolToS
  | symbolToSym
  | symbolInspect
  | arrayEach
  | arrayMap
  | arrayPush
  | arrayLength
  | arrayFirst
  | arrayLast
  | arrayAt
  | arrayJoin
  | arrayInspect
  | hashGet
  | hashSet
  | hashLength
  | hashKeys
  | hashInspect
  | procCall
  | procToProc
  | procIsLambda
  | exceptionMessage
  | exceptionToS
  | exceptionInspect
  | exceptionBacktrace
deriving DecidableEq, Repr

/-- A call as a method of the host's sees it. -/
structure Invocation where
  receiver : Value
  method : SymbolId
  args : List Value
  /-- The last argument holds keywords. -/
  kwSplat : Bool
  blockGiven : Bool

/-- What a method of the host's does. -/
inductive Routine where
  | done (value : Value)
  /-- A bug of the method's. -/
  | panic (message : String)
  | perform (task : Task) (next : task.Result → Routine)
  /-- Call a method by name, without a block. -/
  | send (receiver : Value) (method : String) (args : List Value) (next : Value → Routine)
  /-- Call the block of the method. -/
  | yield (args : List Value) (next : Value → Routine)
  | make (datum : Datum) (next : Value → Routine)

/-- A method. -/
inductive Method where
  | builtin (b : Builtin)
  | routine (body : Invocation → Routine)

/-- The interpreter's own methods, class by class. -/
def builtinMethods : List (CoreClass × List (String × Builtin)) := [
  (.object, [
    ("class", .objectClass), ("inspect", .objectInspect), ("to_s", .objectInspect),
    ("==", .objectEqual), ("equal?", .objectEqual), ("!=", .objectNotEqual),
    ("nil?", .objectIsNil), ("is_a?", .objectIsA), ("kind_of?", .objectIsA),
    ("respond_to?", .objectRespondTo), ("puts", .puts), ("p", .p)]),
  (.moduleClass, [
    ("name", .moduleName), ("to_s", .moduleToS), ("inspect", .moduleToS),
    ("===", .moduleCaseEqual), ("const_get", .moduleConstGet),
    ("class_variable_get", .moduleClassVariableGet)]),
  (.classClass, [("new", .classNew), ("superclass", .classSuperclass)]),
  (.nilClass, [
    ("to_s", .nilToS), ("to_a", .nilToA), ("to_i", .nilToI), ("to_f", .nilToF),
    ("inspect", .nilInspect), ("nil?", .nilIsNil)]),
  (.trueClass, [("to_s", .trueToS), ("inspect", .trueToS)]),
  (.falseClass, [("to_s", .falseToS), ("inspect", .falseToS)]),
  (.integer, [
    ("+", .add), ("-", .sub), ("*", .mul), ("/", .div), ("%", .mod), ("-@", .negate),
    ("==", .numberEqual), ("<", .less), (">", .greater), ("<=", .lessEqual),
    (">=", .greaterEqual), ("to_s", .numberToS), ("inspect", .numberToS),
    ("to_i", .integerToI), ("to_int", .integerToI), ("to_f", .numberToF),
    ("times", .integerTimes), ("zero?", .numberIsZero)]),
  (.float, [
    ("+", .add), ("-", .sub), ("*", .mul), ("/", .div), ("-@", .negate),
    ("==", .numberEqual), ("<", .less), (">", .greater), ("<=", .lessEqual),
    (">=", .greaterEqual), ("to_s", .numberToS), ("inspect", .numberToS), ("to_i", .floatToI),
    ("to_int", .floatToI), ("to_f", .numberToF), ("nan?", .floatIsNan),
    ("zero?", .numberIsZero)]),
  (.string, [
    ("to_s", .stringToS), ("to_str", .stringToS), ("inspect", .stringInspect),
    ("length", .stringLength), ("size", .stringLength), ("+", .stringPlus),
    ("==", .stringEqual), ("to_i", .stringToI), ("to_f", .stringToF),
    ("to_sym", .stringToSym)]),
  (.symbol, [
    ("to_s", .symbolToS), ("to_sym", .symbolToSym), ("inspect", .symbolInspect)]),
  (.array, [
    ("each", .arrayEach), ("map", .arrayMap), ("push", .arrayPush), ("<<", .arrayPush),
    ("length", .arrayLength), ("size", .arrayLength), ("first", .arrayFirst),
    ("last", .arrayLast), ("[]", .arrayAt), ("join", .arrayJoin), ("inspect", .arrayInspect),
    ("to_s", .arrayInspect)]),
  (.hash, [
    ("[]", .hashGet), ("[]=", .hashSet), ("length", .hashLength), ("size", .hashLength),
    ("keys", .hashKeys), ("inspect", .hashInspect), ("to_s", .hashInspect)]),
  (.procClass, [
    ("call", .procCall), ("yield", .procCall), ("to_proc", .procToProc),
    ("lambda?", .procIsLambda)]),
  (.exception, [
    ("message", .exceptionMessage), ("to_s", .exceptionToS), ("inspect", .exceptionInspect),
    ("backtrace", .exceptionBacktrace)])]

end EmbeddedRuby
