import EmbeddedRuby.Machine.Reentry

/-!
# Conversions between objects and numbers

Two layers.  `toInteger` and `toFloat` make a number object of something, reading strings strictly
and asking other objects for `to_int`, `to_i` or `to_f`.  `toLong`, `toUnsignedLong` and `toDouble`
take a number out of an object, and refuse what is out of range.

Only `toUnsignedLong` wraps: a negative number of 64 bits becomes the unsigned one with the same
bits.  `toUnsigned`, which the host uses, therefore looks at the sign first.
-/

namespace EmbeddedRuby

namespace Integer

/-- The smallest signed number of 64 bits. -/
def longMin : Int := -0x8000000000000000

/-- The number after the largest signed number of 64 bits. -/
def longEnd : Int := 0x8000000000000000

/-- The number after the largest unsigned number of 64 bits. -/
def unsignedEnd : Int := 0x10000000000000000

end Integer

open Integer (longMin longEnd unsignedEnd)

namespace Reentry

open Eval

variable {σ : Type} (r : Reentry σ)

/-- The integer part of a float as an object; beyond the integers the interpreter holds it is the
nearest of these. -/
def integerPart (x : Double) : Eval σ Value := do
  match x.truncate? with
  | some n => onMachine fun m => m.newInteger (Integer.saturate n)
  | none => raise (.noIntegerPart x.text)

/-- The first of the methods that an object has. -/
def firstMethod? (v : Value) : List String → Eval σ (Option String)
  | [] => return none
  | name :: rest => do
    if ← respondsTo v name then return some name else firstMethod? v rest

/-- Convert an object by the first of the methods that it has; the result has to be accepted. -/
def convertBy (v : Value) (methods : List String) (target : String) (accepts : ValueType → Bool) :
    Eval σ Value := do
  let subject := (← machine).subject v
  match ← firstMethod? v methods with
  | none => raise (.notConvertible subject target)
  | some name =>
    let converted ← r.sendNamed v name []
    let m ← machine
    if accepts (m.heap.typeOf converted) then return converted
    else raise (.wrongConversion subject target name (m.subject converted))

/-- An object as an integer object. -/
def toInteger (v : Value) : Eval σ Value := do
  let m ← machine
  match m.heap.typeOf v with
  | .fixnum | .bignum => return v
  | .float => integerPart ((m.heap.float? v).getD (Double.zero false))
  | .string =>
    let text := Utf8.decodeLossy ((m.heap.bytes? v).getD [])
    match Integer.parse? text with
    | some n => onMachine fun m => m.newInteger n
    | none => raise (.badInteger (String.ofList (Text.quote text)))
  | .nil => raise (.notConvertible "nil" "Integer")
  | _ => r.convertBy v ["to_int", "to_i"] "Integer" fun type => type = .fixnum || type = .bignum

/-- An object as a float object. -/
def toFloat (v : Value) : Eval σ Value := do
  let m ← machine
  match m.heap.typeOf v with
  | .float => return v
  | .fixnum | .bignum =>
    onMachine fun m => m.newFloat (Double.ofInt ((m.heap.int? v).getD 0))
  | .string =>
    let text := Utf8.decodeLossy ((m.heap.bytes? v).getD [])
    match Double.parse? text with
    | some x => onMachine fun m => m.newFloat x
    | none => raise (.badFloat (String.ofList (Text.quote text)))
  | .nil | .true | .false => raise (.notConvertible (m.subject v) "Float")
  | _ => r.convertBy v ["to_f"] "Float" fun type => type = .float

/-- Refuse an object where an integer is needed. -/
def refuseInteger {α : Type} (v : Value) : Eval σ α := do
  let m ← machine
  if m.heap.typeOf v = .nil then raise .nilToInteger
  else raise (.noImplicitInteger (m.subject v))

/-- The number that an object has or converts to, before any check of its range. -/
def numberOf (v : Value) : Eval σ (Int ⊕ Double) := do
  let m ← machine
  match m.heap.int? v, m.heap.float? v with
  | some n, _ => return .inl n
  | none, some x => return .inr x
  | none, none =>
    match m.heap.typeOf v with
    | .nil | .true | .false => refuseInteger v
    | _ =>
      if ← respondsTo v "to_int" then
        let converted ← r.sendNamed v "to_int" []
        match (← machine).heap.int? converted with
        | some n => return .inl n
        | none => refuseInteger v
      else refuseInteger v

/-- A signed number of 64 bits. -/
def toLong (v : Value) : Eval σ Int := do
  match ← r.numberOf v with
  | .inl n => if longMin ≤ n ∧ n < longEnd then return n else raise .bignumBeyondLong
  | .inr x =>
    match x.value? with
    | some q =>
      if longMin ≤ q ∧ q < longEnd then return Double.integerPart q
      else raise (.floatBeyondInteger x.text)
    | none => raise (.floatBeyondInteger x.text)

/-- An unsigned number of 64 bits; a negative number of 64 bits wraps. -/
def toUnsignedLong (v : Value) : Eval σ Nat := do
  match ← r.numberOf v with
  | .inl n =>
    if longMin ≤ n ∧ n < unsignedEnd then return (n % unsignedEnd).toNat
    else raise .bignumBeyondUnsigned
  | .inr x =>
    match x.value? with
    | some q =>
      if longMin < q ∧ q < unsignedEnd then return (Double.integerPart q % unsignedEnd).toNat
      else raise (.floatBeyondInteger x.text)
    | none => raise (.floatBeyondInteger x.text)

/-- A double. -/
def toDouble (v : Value) : Eval σ Double := do
  let m ← machine
  match m.heap.int? v, m.heap.float? v with
  | some n, _ => return Double.ofInt n
  | none, some x => return x
  | none, none =>
    match m.heap.typeOf v with
    | .string => raise (.noImplicitFloat "string")
    | .nil => raise (.noImplicitFloat "nil")
    | .true => raise (.noImplicitFloat "true")
    | .false => raise (.noImplicitFloat "false")
    | _ => raise (.notConvertible (m.subject v) "Float")

/-- Make an integer of an object until it is one, or a float, or nil. -/
def coerce : Nat → Value → Eval σ Value
  | 0, _ => exhausted
  | rounds + 1, v => do
    match (← machine).heap.typeOf v with
    | .fixnum | .float | .bignum | .nil => return v
    | _ => coerce rounds (← r.toInteger v)

/-- Is the number below zero?  Minus zero and what is not a number are not. -/
def isNegativeNumber (m : Machine) (v : Value) : Bool :=
  match m.heap.typeOf v with
  | .fixnum => decide (v.fixnumBits < 0)
  | .float => ((m.heap.float? v).bind fun x => x.compare? (Double.zero false)) == some .lt
  | .bignum => (m.heap.int? v).any (· < 0)
  | _ => false

/-- An unsigned number of 64 bits; negative numbers are refused. -/
def toUnsigned (v : Value) : Eval σ Nat := do
  let number ← r.coerce r.rounds v
  if isNegativeNumber (← machine) number then raise .negativeUnsigned
  else r.toUnsignedLong number

end Reentry

end EmbeddedRuby
