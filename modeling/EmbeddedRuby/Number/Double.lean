import EmbeddedRuby.Number.BinaryFormat

/-!
# Double-precision numbers

A `Double` is a word of 64 bits.  Its finite values are rational numbers (`value?`), and each
operation is the exact operation on rationals followed by one rounding (`ofRat`); what is left to
say is what happens at infinities, at zeros of either sign, and at what is not a number.

* `add`, `sub`, `mul`, `div`, `floorMod`: arithmetic;
* `compare?`: the order, undefined when an operand is not a number;
* `truncate`: the integer part;
* `ofInt`, `ofRat`, `Single.widen`, `narrow`: the way in from integers and rationals, and to and
  from single precision.
-/

namespace EmbeddedRuby

open BinaryFormat (binary64 binary32)

/-- A double-precision number, as its word. -/
structure Double where
  bits : UInt64
deriving DecidableEq, Repr, Inhabited

/-- A single-precision number, as its word. -/
structure Single where
  bits : UInt32
deriving DecidableEq, Repr, Inhabited

namespace Double

/-- The number with this word. -/
def ofWord (word : Nat) : Double := ⟨UInt64.ofNat word⟩

/-- Sign, significand and exponent. -/
def unpack (x : Double) : BinaryFormat.Unpacked :=
  binary64.unpack x.bits.toNat

/-- Not a number. -/
def nan : Double := ofWord (binary64.infinity + binary64.fractionLimit / 2)

/-- The infinity of the given sign. -/
def infinite (negative : Bool) : Double :=
  ofWord (if negative then binary64.signBit + binary64.infinity else binary64.infinity)

/-- The zero of the given sign. -/
def zero (negative : Bool) : Double :=
  ofWord (if negative then binary64.signBit else 0)

/-- The number nearest to `± num / den`. -/
def ofQuotient (negative : Bool) (num den : Nat) : Double :=
  ofWord (binary64.nearestSigned negative num den)

/-- The number nearest to a rational; zero is positive. -/
def ofRat (r : Rat) : Double :=
  ofQuotient (decide (r < 0)) r.num.natAbs r.den

/-- The number nearest to an integer. -/
def ofInt (n : Int) : Double :=
  ofQuotient (decide (n < 0)) n.natAbs 1

def isNan (x : Double) : Bool :=
  match x.unpack with
  | .nan => true
  | _ => false

def isFinite (x : Double) : Bool :=
  match x.unpack with
  | .finite .. => true
  | _ => false

/-- Is the sign bit set? -/
def isNegative (x : Double) : Bool :=
  decide (binary64.signBit ≤ x.bits.toNat)

/-- `significand · 2 ^ exponent` as a rational. -/
def scaled (significand : Nat) (exponent : Int) : Rat :=
  mkRat (significand * Nat.pow 2 exponent.toNat : Nat) (Nat.pow 2 (-exponent).toNat)

/-- The rational that a finite number is. -/
def value? (x : Double) : Option Rat :=
  match x.unpack with
  | .finite negative significand exponent =>
    some (if negative then -scaled significand exponent else scaled significand exponent)
  | _ => none

/-- The same number with the other sign. -/
def neg (x : Double) : Double :=
  if x.isNegative then ofWord (x.bits.toNat - binary64.signBit)
  else ofWord (x.bits.toNat + binary64.signBit)

/-- A sum that rounds to zero is negative only if both terms are. -/
def add (x y : Double) : Double :=
  match x.unpack, y.unpack with
  | .nan, _ | _, .nan => nan
  | .infinite s, .infinite t => if s = t then infinite s else nan
  | .infinite s, _ => infinite s
  | _, .infinite t => infinite t
  | .finite s .., .finite t .. =>
    match x.value?, y.value? with
    | some a, some b => if a + b = 0 then zero (a = 0 && s && t) else ofRat (a + b)
    | _, _ => nan

def sub (x y : Double) : Double :=
  add x y.neg

def mul (x y : Double) : Double :=
  match x.unpack, y.unpack with
  | .nan, _ | _, .nan => nan
  | .infinite s, .infinite t => infinite (s != t)
  | .infinite s, .finite t m _ => if m = 0 then nan else infinite (s != t)
  | .finite s m _, .infinite t => if m = 0 then nan else infinite (s != t)
  | .finite s .., .finite t .. =>
    match x.value?, y.value? with
    | some a, some b => ofQuotient (s != t) (a * b).num.natAbs (a * b).den
    | _, _ => nan

def div (x y : Double) : Double :=
  match x.unpack, y.unpack with
  | .nan, _ | _, .nan => nan
  | .infinite _, .infinite _ => nan
  | .infinite s, .finite t .. => infinite (s != t)
  | .finite s .., .infinite t => zero (s != t)
  | .finite s m _, .finite t n _ =>
    if n = 0 then if m = 0 then nan else infinite (s != t)
    else
      match x.value?, y.value? with
      | some a, some b => ofQuotient (s != t) (a / b).num.natAbs (a / b).den
      | _, _ => nan

/-- The largest integral number that is not larger; a zero keeps its sign. -/
def floor (x : Double) : Double :=
  match x.unpack, x.value? with
  | .finite s .., some a => if a = 0 then zero s else ofInt a.floor
  | _, _ => x

/-- What is left of `x` after taking away `y` as often as the floor of the quotient says, each step
rounded. -/
def floorMod (x y : Double) : Double :=
  sub x (mul y (div x y).floor)

/-- How two numbers compare; `none` if one of them is not a number. -/
def compare? (x y : Double) : Option Ordering :=
  match x.unpack, y.unpack with
  | .nan, _ | _, .nan => none
  | .infinite s, .infinite t => some (compare (!s) (!t))
  | .infinite s, _ => some (if s then .lt else .gt)
  | _, .infinite t => some (if t then .gt else .lt)
  | .finite .., .finite .. =>
    match x.value?, y.value? with
    | some a, some b => some (if a < b then .lt else if a = b then .eq else .gt)
    | _, _ => none

/-- Do the two numbers compare as equal?  Zeros of either sign do, what is not a number does not. -/
def equals (x y : Double) : Bool :=
  x.compare? y = some .eq

/-- The integer part of a rational, toward zero. -/
def integerPart (r : Rat) : Int :=
  r.num.tdiv r.den

/-- The integer part of a finite number. -/
def truncate? (x : Double) : Option Int :=
  x.value?.map integerPart

/-- Is the number finite and an integer? -/
def isIntegral (x : Double) : Bool :=
  match x.value? with
  | some r => r.den == 1
  | none => false

/-- The single-precision number nearest to this one. -/
def narrow (x : Double) : Single :=
  let word :=
    match x.unpack with
    | .nan => binary32.infinity + binary32.fractionLimit / 2
    | .infinite s => if s then binary32.signBit + binary32.infinity else binary32.infinity
    | .finite s .. =>
      match x.value? with
      | some r => binary32.nearestSigned s r.num.natAbs r.den
      | none => 0
  ⟨UInt32.ofNat word⟩

end Double

/-- The double-precision number with the value of a single-precision one. -/
def Single.widen (x : Single) : Double :=
  match binary32.unpack x.bits.toNat with
  | .nan => Double.nan
  | .infinite s => Double.infinite s
  | .finite s significand exponent =>
    let r := Double.scaled significand exponent
    Double.ofQuotient s r.num.natAbs r.den

def Single.isNan (x : Single) : Bool :=
  match binary32.unpack x.bits.toNat with
  | .nan => true
  | _ => false

end EmbeddedRuby
