import EmbeddedRuby.Builtin.Text

/-!
# Methods of arrays, hashes, procs and exceptions

An iteration over an array looks at the array again before each round, so items that the block adds
are visited too.
-/

namespace EmbeddedRuby.Methods

open Eval

variable {σ : Type}

/-- An item of an array. -/
def item? (v : Value) (index : Nat) : Eval σ (Option Value) := do
  return ((← machine).heap.items? v).bind fun items => items[index]?

/-- The items of an array; none of anything else. -/
def itemsOf (v : Value) : Eval σ (List Value) := do
  return ((← machine).heap.items? v).getD []

/-- Call the block with the items from `index` on, as many as `rounds` at most, and give what the
block gave, after `results` in reverse. -/
def eachFrom (r : Reentry σ) (call : Call σ) : Nat → Nat → List Value → Eval σ (List Value)
  | 0, _, _ => exhausted
  | rounds + 1, index, results => do
    match ← item? call.receiver index with
    | none => return results.reverse
    | some item =>
      let result ← r.yieldBlock call [item]
      eachFrom r call rounds (index + 1) (result :: results)

def each (r : Reentry σ) (call : Call σ) : Eval σ Value := do
  let _ ← eachFrom r call r.rounds 0 []
  return call.receiver

def map (r : Reentry σ) (call : Call σ) : Eval σ Value := do
  let results ← eachFrom r call r.rounds 0 []
  onMachine fun m => m.newArray results

/-- The heap in which an array has more items at its end. -/
def pushItems (h : Heap) (array : Value) (items : List Value) : Heap :=
  match h.items? array with
  | some old => h.setBody array (.array (old ++ items))
  | none => h

def push (call : Call σ) : Eval σ Value := do
  changeMachine fun m => { m with heap := pushItems m.heap call.receiver call.args }
  return call.receiver

def arrayLength (call : Call σ) : Eval σ Value := do
  return Value.ofFixnum (← itemsOf call.receiver).length

def first (call : Call σ) : Eval σ Value := do
  return (← item? call.receiver 0).getD Value.nil

def last (call : Call σ) : Eval σ Value := do
  return (← itemsOf call.receiver).getLast?.getD Value.nil

/-- The item at an index; a negative index counts from the end. -/
def itemAt (items : List Value) (index : Int) : Value :=
  let place := if index < 0 then items.length + index else index
  if place < 0 then Value.nil else (items[place.toNat]?).getD Value.nil

def itemAtArg (r : Reentry σ) (call : Call σ) : Eval σ Value := do
  checkArity call 1 1
  let index ← r.toLong (call.arg 0)
  return itemAt (← itemsOf call.receiver) index

/-- The texts of the items with the separator between them; arrays inside are joined the same way,
down to a depth of `depth`. -/
def joinItems (r : Reentry σ) (separator : String) : Nat → Value → Eval σ String
  | 0, _ => exhausted
  | depth + 1, array => do
    let texts ← (← itemsOf array).mapM fun item => do
      if (← machine).heap.typeOf item = .array then joinItems r separator depth item
      else r.displayText item
    return separator.intercalate texts

def join (r : Reentry σ) (call : Call σ) : Eval σ Value := do
  checkArity call 0 1
  let separator ←
    match call.args.head? with
    | some separator => r.displayText separator
    | none => pure ""
  newText (← joinItems r separator r.rounds call.receiver)

def showArray (r : Reentry σ) (call : Call σ) : Eval σ Value := do
  let texts ← (← itemsOf call.receiver).mapM r.inspectText
  newText ("[" ++ ", ".intercalate texts ++ "]")

/-- The pairs of a hash; none of anything else. -/
def pairsOf (v : Value) : Eval σ (List (Value × Value)) := do
  return ((← machine).heap.pairs? v).getD []

def hashGet (call : Call σ) : Eval σ Value := do
  checkArity call 1 1
  return ((← machine).lookUpInHash call.receiver (call.arg 0)).getD Value.nil

def hashSet (call : Call σ) : Eval σ Value := do
  checkArity call 2 2
  storeInHash call.receiver (call.arg 0) (call.arg 1)
  return call.arg 1

def hashLength (call : Call σ) : Eval σ Value := do
  return Value.ofFixnum (← pairsOf call.receiver).length

def hashKeys (call : Call σ) : Eval σ Value := do
  let keys := (← pairsOf call.receiver).map Prod.fst
  onMachine fun m => m.newArray keys

/-- A pair of a hash: symbols with plain names stand before a colon, other keys before an arrow. -/
def showPair (r : Reentry σ) (pair : Value × Value) : Eval σ String := do
  let value ← r.inspectText pair.2
  let name := pair.1.symbol?.map (← machine).symbols.name
  match name with
  | some name =>
    if Text.isPlainName name.toList then return name ++ ": " ++ value
    else return (← r.inspectText pair.1) ++ " => " ++ value
  | none => return (← r.inspectText pair.1) ++ " => " ++ value

def showHash (r : Reentry σ) (call : Call σ) : Eval σ Value := do
  let texts ← (← pairsOf call.receiver).mapM (showPair r)
  newText ("\x7b" ++ ", ".intercalate texts ++ "\x7d")

/-- Call the proc with the arguments, and with the proc that is the block, if it is one. -/
def callReceiver (r : Reentry σ) (call : Call σ) : Eval σ Value :=
  let blockArg :=
    match call.block with
    | .proc proc _ => proc
    | _ => Value.nil
  r.callProc call.receiver call.args none blockArg

/-- The message as a string; an exception without a message has the name of its class. -/
def exceptionText (r : Reentry σ) (call : Call σ) : Eval σ Value := do
  let m ← machine
  let message := (m.heap.exceptionParts call.receiver).1
  if message = Value.nil then newText (m.className call.receiver)
  else if m.heap.typeOf message = .string then return message
  else r.sendNamed message "to_s" []

def showException (r : Reentry σ) (call : Call σ) : Eval σ Value := do
  let cls := (← machine).className call.receiver
  let message ← textOf (← r.sendNamed call.receiver "to_s" [])
  if message = "" then newText cls else newText (s!"#<{cls}: {message}>")

def backtraceOf (call : Call σ) : Eval σ Value := do
  return ((← machine).heap.exceptionParts call.receiver).2

end EmbeddedRuby.Methods
