/-!
# Binary floating-point formats

A format has a number of significand bits and a number of exponent bits.  A word of the format is a
sign, an exponent field and a fraction; `unpack` reads it as a value

    ± significand · 2 ^ exponent,

an infinity, or not a number.  `nearest` goes the other way: it takes a quotient of natural numbers
to the word whose value is closest, the one with the even significand if two are equally close, and
infinity if the quotient is beyond the largest value by half a step or more.

All of it is arithmetic on integers, so what a format does to a number can be calculated and proved.
-/

namespace EmbeddedRuby

/-- The shape of a binary interchange format. -/
structure BinaryFormat where
  /-- Bits of the significand, the implicit one included. -/
  precision : Nat
  /-- Bits of the exponent field. -/
  exponentBits : Nat
deriving DecidableEq, Repr

namespace BinaryFormat

/-- Double precision. -/
def binary64 : BinaryFormat := ⟨53, 11⟩

/-- Single precision. -/
def binary32 : BinaryFormat := ⟨24, 8⟩

variable (f : BinaryFormat)

/-- What the fraction field counts to, which is also the smallest significand of a normal value. -/
def fractionLimit : Nat := Nat.pow 2 (f.precision - 1)

/-- The largest exponent field, which marks what is not a finite value. -/
def exponentLimit : Nat := Nat.pow 2 f.exponentBits - 1

/-- The exponent of the last bit of the smallest values. -/
def minExponent : Int := 3 - (Nat.pow 2 (f.exponentBits - 1) : Int) - f.precision

/-- The word of positive infinity. -/
def infinity : Nat := f.exponentLimit * f.fractionLimit

/-- The bit that makes a word negative. -/
def signBit : Nat := Nat.pow 2 (f.precision + f.exponentBits - 1)

/-- What a word stands for. -/
inductive Unpacked where
  | nan
  | infinite (negative : Bool)
  /-- `significand · 2 ^ exponent`, with the sign apart so that there are two zeros. -/
  | finite (negative : Bool) (significand : Nat) (exponent : Int)
deriving DecidableEq, Repr

/-- Read a word. -/
def unpack (word : Nat) : Unpacked :=
  let negative := decide (f.signBit ≤ word)
  let magnitude := word % f.signBit
  let field := magnitude / f.fractionLimit
  let fraction := magnitude % f.fractionLimit
  if field = f.exponentLimit then
    if fraction = 0 then .infinite negative else .nan
  else if field = 0 then .finite negative fraction f.minExponent
  else .finite negative (f.fractionLimit + fraction) (f.minExponent + (field - 1))

/-- The quotient of two natural numbers, rounded to the nearest one; halves go to the even one. -/
def roundEven (num den : Nat) : Nat :=
  let quotient := num / den
  let twice := 2 * (num % den)
  if twice < den then quotient
  else if den < twice then quotient + 1
  else quotient + quotient % 2

/-- The numerator of `num / den · 2 ^ (-exponent)`. -/
def scaledNum (num : Nat) (exponent : Int) : Nat :=
  num * Nat.pow 2 (-exponent).toNat

/-- The denominator of `num / den · 2 ^ (-exponent)`. -/
def scaledDen (den : Nat) (exponent : Int) : Nat :=
  den * Nat.pow 2 exponent.toNat

/-- The exponent at which `num / den` has a significand of the format's precision, or the smallest
exponent if that is not reached. -/
def exponentFor (num den : Nat) : Int :=
  let guess := max ((num.log2 : Int) - den.log2 - f.precision) f.minExponent
  if Nat.pow 2 f.precision ≤ scaledNum num guess / scaledDen den guess then guess + 1 else guess

/-- The word of the value nearest to `num / den`. -/
def nearest (num den : Nat) : Nat :=
  if num = 0 then 0
  else
    let exponent := f.exponentFor num den
    let significand := roundEven (scaledNum num exponent) (scaledDen den exponent)
    let word := (exponent - f.minExponent).toNat * f.fractionLimit + significand
    min word f.infinity

/-- The word of the value nearest to `± num / den`. -/
def nearestSigned (negative : Bool) (num den : Nat) : Nat :=
  if negative then f.signBit + f.nearest num den else f.nearest num den

end BinaryFormat

end EmbeddedRuby
