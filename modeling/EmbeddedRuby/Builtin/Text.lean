import EmbeddedRuby.Builtin.Number

/-!
# Methods of strings and symbols

Strings are bytes, and most methods read them as text with replacement characters for what cannot be
read; joining and comparing strings is done on the bytes.
-/

namespace EmbeddedRuby.Methods

open Eval

variable {σ : Type}

/-- The characters of a string. -/
def charsOf (v : Value) : Eval σ (List Char) := do
  return Utf8.decodeLossy (((← machine).heap.bytes? v).getD [])

def showString (call : Call σ) : Eval σ Value := do
  let chars ← charsOf call.receiver
  newText (String.ofList (Text.quote chars))

def stringLength (call : Call σ) : Eval σ Value := do
  let chars ← charsOf call.receiver
  onMachine fun m => m.newInteger chars.length

def joinStrings (call : Call σ) : Eval σ Value := do
  checkArity call 1 1
  let m ← machine
  match m.heap.bytes? call.receiver, m.heap.bytes? (call.arg 0) with
  | some front, some back => onMachine fun m => m.newString (front ++ back)
  | _, _ => raise (.noImplicitString (m.className (call.arg 0)))

def stringsEqual (call : Call σ) : Eval σ Value := do
  checkArity call 1 1
  let h := (← machine).heap
  match h.bytes? call.receiver, h.bytes? (call.arg 0) with
  | some a, some b => return Value.ofBool (a == b)
  | _, _ => return Value.ofBool false

/-- The integer at the front of the string. -/
def stringAsInteger (call : Call σ) : Eval σ Value := do
  let chars ← charsOf call.receiver
  onMachine fun m => m.newInteger (Integer.ofFront chars)

/-- The float at the front of the string. -/
def stringAsFloat (call : Call σ) : Eval σ Value := do
  let chars ← charsOf call.receiver
  onMachine fun m => m.newFloat (Double.ofFront chars)

def stringAsSymbol (call : Call σ) : Eval σ Value := do
  let id ← intern (← textOf call.receiver)
  return Value.ofSymbol id

/-- The name of a symbol; empty for anything else. -/
def symbolName (v : Value) : Eval σ String := do
  match v.symbol? with
  | some id => return (← machine).symbols.name id
  | none => return ""

def symbolText (call : Call σ) : Eval σ Value := do
  newText (← symbolName call.receiver)

def showSymbol (call : Call σ) : Eval σ Value := do
  let name ← symbolName call.receiver
  newText (String.ofList (Text.quoteSymbol name.toList))

end EmbeddedRuby.Methods
