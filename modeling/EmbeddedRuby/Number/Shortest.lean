import EmbeddedRuby.Number.Double
import EmbeddedRuby.Number.Digits

/-!
# The shortest decimal that reads back

Every finite double has decimals that round to it.  `shortest` finds those with the fewest digits,
and of those the one closest to the number; of two equally close ones it takes the larger.

The decimals that round to a number form an interval around it: half a step to each side, less
below a power of two, with the ends included when the significand is even.  For each count of
digits only the two neighbours of the number on that decimal grid have to be tried, since if any
point of the grid lies in the interval, one of these two does.

`DecimalStyle` says how such a decimal is written: from which exponents on in scientific notation,
and with how many digits after the point at least.
-/

namespace EmbeddedRuby

/-- The positive rationals that round to a number, over a common denominator. -/
structure RoundingInterval where
  low : Nat
  center : Nat
  high : Nat
  den : Nat
  /-- Do the ends themselves round to the number? -/
  closed : Bool
deriving Repr

namespace RoundingInterval

/-- The interval of a positive double given by significand and exponent. -/
def ofParts (significand : Nat) (exponent : Int) : RoundingInterval :=
  let below := if significand = BinaryFormat.binary64.fractionLimit then 1 else 2
  let up := Nat.pow 2 (exponent - 2).toNat
  ⟨(4 * significand - below) * up, 4 * significand * up, (4 * significand + 2) * up,
    Nat.pow 2 (2 - exponent).toNat, significand % 2 = 0⟩

/-- Does `n · 10 ^ exponent` lie in the interval? -/
def contains (i : RoundingInterval) (n : Nat) (exponent : Int) : Bool :=
  let x := n * Nat.pow 10 exponent.toNat * i.den
  let scale := Nat.pow 10 (-exponent).toNat
  if i.closed then i.low * scale ≤ x && x ≤ i.high * scale
  else i.low * scale < x && x < i.high * scale

end RoundingInterval

/-- A decimal `0.d₁d₂d₃… · 10 ^ point`, as its digits and the place of its point. -/
structure Decimal where
  digits : List Char
  point : Int
deriving DecidableEq, Repr

namespace Decimal

/-- How many decimal digits `n` has; zero has none. -/
def digitCount (n : Nat) : Nat :=
  if n = 0 then 0 else (Numeral.decimal n).length

/-- The place of the point of `num / den`: it is below `10 ^ point`, and not below a tenth of it. -/
def pointOf (num den : Nat) : Int :=
  if den ≤ num then digitCount (num / den) else 1 - (digitCount ((den - 1) / num) : Int)

/-- The decimal `n · 10 ^ exponent`, without the zeros at its end. -/
def ofScaled (n : Nat) (exponent : Int) : Decimal :=
  let text := Numeral.decimal n
  ⟨(text.reverse.dropWhile (· == '0')).reverse, text.length + exponent⟩

/-- The point of the grid `10 ^ exponent` in the interval that is closest to its centre, the upper
one of two. -/
def closest? (i : RoundingInterval) (exponent : Int) : Option Decimal :=
  let num := i.center * Nat.pow 10 (-exponent).toNat
  let den := i.den * Nat.pow 10 exponent.toNat
  let lower := num / den
  let upper := lower + 1
  match i.contains lower exponent, i.contains upper exponent with
  | true, true =>
    some (ofScaled (if 2 * (num % den) < den then lower else upper) exponent)
  | true, false => some (ofScaled lower exponent)
  | false, true => some (ofScaled upper exponent)
  | false, false => none

/-- The shortest decimal of a positive double; seventeen digits always suffice. -/
def shortest (significand : Nat) (exponent : Int) : Decimal :=
  let i := RoundingInterval.ofParts significand exponent
  let point := pointOf i.center i.den
  ((List.range 17).findSome? fun (n : Nat) => closest? i (point - (n + 1 : Nat))).getD ⟨[], point⟩

/-- Digits and point in positional notation, with at least `places` digits after the point; a point
with nothing after it is left out. -/
def positional (d : Decimal) (places : Nat) : List Char :=
  let whole :=
    if d.point ≤ 0 then ['0']
    else d.digits.take d.point.toNat ++ List.replicate (d.point.toNat - d.digits.length) '0'
  let fraction :=
    List.replicate (-d.point).toNat '0' ++ d.digits.drop d.point.toNat
  let fraction := fraction ++ List.replicate (places - fraction.length) '0'
  if fraction = [] then whole else whole ++ '.' :: fraction

/-- One digit before the point and an exponent without a plus sign. -/
def scientific (d : Decimal) : List Char :=
  let fraction := d.digits.drop 1
  d.digits.take 1 ++ (if fraction = [] then [] else '.' :: fraction) ++
    'e' :: Numeral.decimalInt (d.point - 1)

end Decimal

/-- How doubles are written as text. -/
structure DecimalStyle where
  /-- Numbers whose decimal point stands here or further left are written with an exponent. -/
  leastPoint : Option Int
  /-- Numbers whose decimal point stands further right are written with an exponent. -/
  greatestPoint : Option Int
  /-- Digits after the point of a number in positional notation, at least. -/
  places : Nat
  infinity : List Char
  nan : List Char

namespace DecimalStyle

/-- The decimal with this point is written with an exponent. -/
def isScientific (style : DecimalStyle) (point : Int) : Bool :=
  (style.leastPoint.any (point ≤ ·)) || (style.greatestPoint.any (· < point))

/-- The text of a number. -/
def write (style : DecimalStyle) (x : Double) : List Char :=
  let sign (negative : Bool) : List Char := if negative then ['-'] else []
  match x.unpack with
  | .nan => style.nan
  | .infinite negative => sign negative ++ style.infinity
  | .finite negative significand exponent =>
    if significand = 0 then sign negative ++ Decimal.positional ⟨[], 0⟩ style.places
    else
      let d := Decimal.shortest significand exponent
      sign negative ++
        if style.isScientific d.point then d.scientific else d.positional style.places

end DecimalStyle

end EmbeddedRuby
