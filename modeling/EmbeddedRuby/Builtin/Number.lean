import EmbeddedRuby.Builtin.Object

/-!
# Methods of integers and floats

Integers are exact and stay within the 128 bits that the interpreter holds; a result beyond is a
range error.  As soon as one operand is a float, both are taken as doubles.  Division rounds toward
the lower integer and the remainder has the sign of the divisor.
-/

namespace EmbeddedRuby

/-- The number in an object. -/
inductive Number where
  | int (n : Int)
  | float (x : Double)
deriving DecidableEq, Repr

namespace Number

def toDouble : Number → Double
  | int n => Double.ofInt n
  | float x => x

/-- The number in an object, if it is one. -/
def of? (h : Heap) (v : Value) : Option Number :=
  match h.int? v with
  | some n => some (int n)
  | none => (h.float? v).map float

/-- How two numbers compare: integers exactly, otherwise as doubles. -/
def compare? : Number → Number → Option Ordering
  | int a, int b => some (compare a b)
  | a, b => a.toDouble.compare? b.toDouble

/-- Are two numbers equal? -/
def equals (a b : Number) : Bool :=
  a.compare? b == some .eq

/-- The text of a number. -/
def text : Number → String
  | int n => String.ofList (Numeral.decimalInt n)
  | float x => x.text

end Number

/-- An operation of arithmetic. -/
inductive Arithmetic where
  | add
  | sub
  | mul
  | div
  | mod
deriving DecidableEq, Repr

namespace Arithmetic

/-- Is the second operand a divisor? -/
def divides : Arithmetic → Bool
  | add | sub | mul => false
  | div | mod => true

/-- The quotient rounded down: rounded toward zero it is one too large if something is left over
and the signs differ. -/
def floorQuotient (a b : Int) : Int :=
  if a.tmod b ≠ 0 ∧ ¬(a < 0 ↔ b < 0) then a.tdiv b - 1 else a.tdiv b

/-- What the quotient rounded down leaves over.  Rounding toward zero leaves something with the sign
of the dividend, and one divisor more has the sign of the divisor. -/
def floorRemainder (a b : Int) : Int :=
  if a.tmod b ≠ 0 ∧ ¬(a.tmod b < 0 ↔ b < 0) then a.tmod b + b else a.tmod b

/-- The exact result on integers, if the interpreter holds it.  Quotient and remainder are refused if
the quotient rounded toward zero is not held. -/
def onInts : Arithmetic → Int → Int → Option Int
  | add, a, b => Integer.checked (a + b)
  | sub, a, b => Integer.checked (a - b)
  | mul, a, b => Integer.checked (a * b)
  | div, a, b => (Integer.checked (a.tdiv b)).map fun _ => floorQuotient a b
  | mod, a, b => (Integer.checked (a.tdiv b)).map fun _ => floorRemainder a b

def onDoubles : Arithmetic → Double → Double → Double
  | add => Double.add
  | sub => Double.sub
  | mul => Double.mul
  | div => Double.div
  | mod => Double.floorMod

end Arithmetic

namespace Methods

open Eval

variable {σ : Type}

/-- A number as an object. -/
def ofNumber : Number → Eval σ Value
  | .int n => onMachine fun m => m.newInteger n
  | .float x => onMachine fun m => m.newFloat x

/-- Receiver and argument as numbers. -/
def operands (call : Call σ) : Eval σ (Number × Number) := do
  checkArity call 1 1
  let m ← machine
  match Number.of? m.heap call.receiver, Number.of? m.heap (call.arg 0) with
  | some a, some b => return (a, b)
  | _, _ => raise (.notCoercible (m.subject (call.arg 0)) (m.className call.receiver))

/-- An operation on receiver and argument. -/
def arithmetic (op : Arithmetic) (call : Call σ) : Eval σ Value := do
  match ← operands call with
  | (.int a, .int b) =>
    if op.divides && b == 0 then raise .dividedByZero
    else
      match op.onInts a b with
      | some n => ofNumber (.int n)
      | none => raise .integerOverflow
  | (a, b) => ofNumber (.float (op.onDoubles a.toDouble b.toDouble))

/-- The number with the other sign; the smallest integer has none. -/
def negated (call : Call σ) : Eval σ Value := do
  match Number.of? (← machine).heap call.receiver with
  | some (.int n) =>
    if n = Integer.minValue then crash "attempt to negate with overflow"
    else ofNumber (.int (-n))
  | some (.float x) => ofNumber (.float x.neg)
  | none => return Value.nil

def numbersEqual (call : Call σ) : Eval σ Value := do
  checkArity call 1 1
  let h := (← machine).heap
  match Number.of? h call.receiver, Number.of? h (call.arg 0) with
  | some a, some b => return Value.ofBool (a.equals b)
  | _, _ => return Value.ofBool false

/-- Does the receiver compare to the argument as `accepts` wants it? -/
def comparison (r : Reentry σ) (accepts : Ordering → Bool) (call : Call σ) : Eval σ Value := do
  checkArity call 1 1
  let m ← machine
  let ordering :=
    match Number.of? m.heap call.receiver, Number.of? m.heap (call.arg 0) with
    | some a, some b => a.compare? b
    | _, _ => none
  match ordering with
  | some ordering => return Value.ofBool (accepts ordering)
  | none =>
    let cls := m.className call.receiver
    raise (.notComparable cls (← r.inspectText (call.arg 0)))

def numberText (call : Call σ) : Eval σ Value := do
  match Number.of? (← machine).heap call.receiver with
  | some n => newText n.text
  | none => newText ""

def numberAsFloat (call : Call σ) : Eval σ Value := do
  match Number.of? (← machine).heap call.receiver with
  | some n => ofNumber (.float n.toDouble)
  | none => ofNumber (.float (Double.zero false))

def isZero (call : Call σ) : Eval σ Value := do
  let number := Number.of? (← machine).heap call.receiver
  return Value.ofBool (number.any fun n => n.toDouble.equals (Double.zero false))

/-- Call the block with the integers from `index` up to `count`, as many as `rounds` at most. -/
def timesFrom (r : Reentry σ) (call : Call σ) (count : Int) : Nat → Int → Eval σ Value
  | 0, _ => exhausted
  | rounds + 1, index =>
    if index < count then do
      let current ← onMachine fun m => m.newInteger index
      let _ ← r.yieldBlock call [current]
      timesFrom r call count rounds (index + 1)
    else return call.receiver

/-- Call the block with all integers from zero up to the receiver. -/
def times (r : Reentry σ) (call : Call σ) : Eval σ Value := do
  let count := ((← machine).heap.int? call.receiver).getD 0
  timesFrom r call count r.rounds 0

/-- The number in a float object; zero for anything else. -/
def floatOf (call : Call σ) : Eval σ Double := do
  return ((← machine).heap.float? call.receiver).getD (Double.zero false)

end Methods

end EmbeddedRuby
