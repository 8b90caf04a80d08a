import EmbeddedRuby.Number.Double
import EmbeddedRuby.Object.Value

/-!
# Tasks and data

A `Task` is a piece of work for the interpreter that may end in a non-local exit: an exception, or a
`break`.  `Task.Result` is the type of what it gives when it does not; tasks that never give
anything have the empty type.  The host runs its tasks behind a barrier, methods written by the host
run them in the open.

A `Datum` is what the host can have made into an object without any such risk.
-/

namespace EmbeddedRuby

/-- Work that may end in a non-local exit. -/
inductive Task where
  /-- Run a script. -/
  | load (path : Value) (wrap : Bool)
  /-- Intern a name, counted as a request of the host. -/
  | intern (name : String)
  /-- Look a constant up in a module, the classes above it, and `Object`. -/
  | constant (module : Value) (id : SymbolId)
  /-- Look a constant up in a module alone. -/
  | constantAt (module : Value) (id : SymbolId)
  | classVar (cls : Value) (id : SymbolId)
  /-- Call a method without a block; with `kwSplat` the last argument holds keywords. -/
  | call (receiver : Value) (method : SymbolId) (args : List Value) (kwSplat : Bool)
  /-- Call a method with a proc as its block, or with none if it is nil. -/
  | callWithProc (receiver : Value) (method : SymbolId) (args : List Value) (proc : Value)
  /-- Call a method with a block that has no host code behind it. -/
  | callWithBareBlock (receiver : Value) (method : SymbolId) (args : List Value)
  /-- Call a proc, with a block argument for it or nil. -/
  | callProc (proc : Value) (args : List Value) (block : Value)
  /-- A hash with symbols as keys. -/
  | keywordHash (pairs : List (SymbolId × Value))
  /-- A number without sign, refusing negative ones. -/
  | toUnsigned (value : Value)
  | toSigned (value : Value)
  | toDouble (value : Value)
  /-- The bytes of how an object is shown. -/
  | inspectBytes (value : Value)
  /-- The bytes of an object as a string. -/
  | stringBytes (value : Value)
  /-- Make an integer object of something, as `Integer()` does. -/
  | integer (value : Value)
  /-- Make a float object of something, as `Float()` does. -/
  | float (value : Value)
  /-- A signed number of 64 bits. -/
  | long (value : Value)
  /-- An unsigned number of 64 bits; negative ones wrap. -/
  | unsignedLong (value : Value)
  /-- A double. -/
  | doubleOf (value : Value)
  | inspect (value : Value)
  | string (value : Value)
  /-- The bytes of a string. -/
  | bytes (value : Value)
  | storeInHash (hash key value : Value)
  /-- The number in a float object. -/
  | floatNumber (value : Value)
  /-- Is the integer negative? -/
  | isNegative (value : Value)
  | raiseTypeError (message : String)
  | raiseRuntimeError (message : String)
  | raise (exception : Value)
  /-- Leave the innermost block that is running. -/
  | breakOut (value : Value)
  /-- Fail with a bug of the host's, which is no exit of the interpreter's. -/
  | panic (message : String)

/-- What a task gives when it ends in order. -/
def Task.Result : Task → Type
  | load .. | constant .. | constantAt .. | classVar .. | call .. | callWithProc ..
  | callWithBareBlock .. | callProc .. | keywordHash _ | integer _ | float _ | inspect _
  | string _ => Value
  | intern _ => SymbolId
  | toUnsigned _ | unsignedLong _ => Nat
  | toSigned _ | long _ => Int
  | toDouble _ | doubleOf _ | floatNumber _ => Double
  | inspectBytes _ | stringBytes _ | bytes _ => List UInt8
  | storeInHash .. => Unit
  | isNegative _ => Bool
  | raiseTypeError _ | raiseRuntimeError _ | raise _ | breakOut _ | panic _ => Empty

/-- What can be made into an object at once. -/
inductive Datum where
  | int (n : Int)
  | float (number : Double)
  | string (bytes : List UInt8)
  | symbol (name : String)
  | array (items : List Value)
  /-- A hash in which the pairs are stored one after the other. -/
  | hash (pairs : List (Value × Value))

end EmbeddedRuby
