import EmbeddedRuby.Number.Digits
import EmbeddedRuby.Text.Layout

/-!
# Integers as text

The interpreter holds integers of 128 bits (`Integer.fits`).  Text becomes an integer in two ways:

* `Integer.parse?` is strict: the whole text has to be a number, with blanks around it, one sign, a
  radix mark and single underscores between digits allowed;
* `Integer.ofFront` is lenient: it reads the longest front that looks like a decimal number, and
  zero if there is none or if the number does not fit.
-/

namespace EmbeddedRuby.Integer

/-- The largest integer the interpreter holds. -/
def maxValue : Int := 0x7FFFFFFFFFFFFFFFFFFFFFFFFFFFFFFF

/-- The smallest integer the interpreter holds. -/
def minValue : Int := -0x80000000000000000000000000000000

/-- Does the interpreter hold this integer? -/
def fits (n : Int) : Bool :=
  minValue ≤ n && n ≤ maxValue

/-- The integer, if the interpreter holds it. -/
def checked (n : Int) : Option Int :=
  if fits n then some n else none

/-- The nearest integer that the interpreter holds. -/
def saturate (n : Int) : Int :=
  max minValue (min n maxValue)

/-- Is the first character a minus sign, and what comes after the sign if there is one. -/
def splitSign : List Char → Bool × List Char
  | '-' :: rest => (true, rest)
  | '+' :: rest => (false, rest)
  | rest => (false, rest)

/-- The radix of a number and its digits, after the mark of the radix. -/
def splitRadix : List Char → Nat × List Char
  | '0' :: c :: rest =>
    if c = 'x' ∨ c = 'X' then (16, rest)
    else if c = 'b' ∨ c = 'B' then (2, rest)
    else if c = 'o' ∨ c = 'O' then (8, rest)
    else (10, '0' :: c :: rest)
  | rest => (10, rest)

/-- Do two underscores stand side by side? -/
def hasDoubleUnderscore : List Char → Bool
  | '_' :: '_' :: _ => true
  | _ :: rest => hasDoubleUnderscore rest
  | [] => false

/-- Underscores stand alone, and neither at the front nor at the end. -/
def underscoresOk (text : List Char) : Bool :=
  text.head? != some '_' && text.getLast? != some '_' && !hasDoubleUnderscore text

/-- The text without its underscores. -/
def dropUnderscores (text : List Char) : List Char :=
  text.filter (· != '_')

/-- The signed number, if the interpreter holds its magnitude. -/
def ofMagnitude (negative : Bool) (magnitude : Nat) : Option Int :=
  if (magnitude : Int) ≤ maxValue then some (if negative then -(magnitude : Int) else magnitude)
  else none

/-- The integer that the whole text writes. -/
def parse? (text : List Char) : Option Int :=
  let (negative, rest) := splitSign (Text.trim text)
  let (radix, digits) := splitRadix rest
  if digits = [] ∨ underscoresOk digits = false then none
  else (Numeral.ofDigits? radix (dropUnderscores digits)).bind (ofMagnitude negative)

/-- The longest front of digits and underscores that starts with a digit. -/
def digitsFront : List Char → List Char
  | [] => []
  | c :: rest =>
    if Text.isDigit c then c :: rest.takeWhile (fun c => Text.isDigit c || c == '_') else []

/-- The longest front that looks like a decimal number: a sign, then digits and underscores. -/
def numberFront (text : List Char) : List Char :=
  match text with
  | [] => []
  | c :: rest => if c = '+' ∨ c = '-' then c :: digitsFront rest else digitsFront text

/-- The integer at the front of the text, after blanks; zero if none is there or it does not fit. -/
def ofFront (text : List Char) : Int :=
  let (negative, digits) := splitSign (dropUnderscores (numberFront (Text.trimStart text)))
  if digits = [] then 0
  else
    match Numeral.ofDigits? 10 digits with
    | some magnitude => (checked (if negative then -(magnitude : Int) else magnitude)).getD 0
    | none => 0

end EmbeddedRuby.Integer
