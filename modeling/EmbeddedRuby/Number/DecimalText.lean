import EmbeddedRuby.Number.Shortest
import EmbeddedRuby.Number.IntegerText

/-!
# Doubles as text

Text becomes a double by the grammar

    sign? digits* ( '.' digits* )? ( ('e' | 'E') sign? digits+ )?

with at least one digit before the exponent (`ofDecimal?`), and the number is the double nearest to
the decimal written.  An exponent is read up to `exponentLimit`; what a longer one leaves unread can
only matter to a number with tens of thousands of digits.  As for integers there is a strict reader,
`parse?`, for the whole of a text, and a lenient one, `ofFront`, for its front.

`text` is how the interpreter writes a double, `plainText` how the host does.
-/

namespace EmbeddedRuby.Double

/-- The digits at the front, and what follows them. -/
def spanDigits (text : List Char) : List Char × List Char :=
  (text.takeWhile Text.isDigit, text.dropWhile Text.isDigit)

/-- The value of decimal digits. -/
def natOfDigits (digits : List Char) : Nat :=
  (Numeral.ofDigits? 10 digits).getD 0

/-- An exponent that has come to this is read no further. -/
def exponentLimit : Nat := 0x10000

/-- The value of the digits of an exponent, continuing from `acc`; digits beyond the limit are
passed over. -/
def exponentFrom : Nat → List Char → Option Nat
  | acc, [] => some acc
  | acc, c :: rest => (Numeral.digitIn? 10 c).bind fun d =>
    exponentFrom (if acc < exponentLimit then acc * 10 + d else acc) rest

/-- The exponent after its letter; `none` if there is something else. -/
def exponent? : List Char → Option Int
  | [] => some 0
  | c :: rest =>
    if c = 'e' ∨ c = 'E' then
      let (negative, digits) := Integer.splitSign rest
      if digits = [] then none
      else (exponentFrom 0 digits).map fun n => if negative then -(n : Int) else n
    else none

/-- The double nearest to `± n · 10 ^ exponent`, where `n` is the number that the digits write.
Beyond `10 ^ 400` all is infinite, and below `10 ^ -400` all is zero. -/
def ofDecimal (negative : Bool) (digits : List Char) (exponent : Int) : Double :=
  let digits := digits.dropWhile (· == '0')
  let order : Int := digits.length + exponent
  if digits = [] ∨ order < -400 then zero negative
  else if 400 < order then infinite negative
  else
    ofQuotient negative (natOfDigits digits * Nat.pow 10 exponent.toNat)
      (Nat.pow 10 (-exponent).toNat)

/-- The double that a decimal in plain or scientific notation writes. -/
def ofDecimal? (text : List Char) : Option Double :=
  let (negative, rest) := Integer.splitSign text
  let (whole, rest) := spanDigits rest
  let (fraction, rest) :=
    match rest with
    | '.' :: rest => spanDigits rest
    | rest => ([], rest)
  if whole = [] ∧ fraction = [] then none
  else (exponent? rest).map fun exponent =>
    ofDecimal negative (whole ++ fraction) (exponent - fraction.length)

/-- The characters that a strictly read double is made of, underscores apart. -/
def isDecimalChar (c : Char) : Bool :=
  Text.isDigit c || c == '+' || c == '-' || c == '.' || c == 'e' || c == 'E'

/-- The double that the whole text writes: single underscores are dropped, and a point stands
neither at the front nor at the end. -/
def parse? (text : List Char) : Option Double :=
  let text := Text.trim text
  if text = [] ∨ Integer.underscoresOk text = false then none
  else
    let cleaned := Integer.dropUnderscores text
    if cleaned.all isDecimalChar = false ∨ cleaned.getLast? = some '.' ∨
        cleaned.head? = some '.' then none
    else ofDecimal? cleaned

/-- What the lenient reader has met so far. -/
structure FrontState where
  /-- The character before, if any. -/
  previous : Option Char
  digit : Bool
  point : Bool
  exponent : Bool

/-- May the front of a decimal number go on with `c`?  If so, the state after it. -/
def FrontState.step (s : FrontState) (c : Char) : Option FrontState :=
  let next := { s with previous := some c }
  if c = '+' ∨ c = '-' then
    if s.previous = none ∨ s.previous = some 'e' ∨ s.previous = some 'E' then some next else none
  else if Text.isDigit c then some { next with digit := true }
  else if c = '_' then if s.digit then some next else none
  else if c = '.' then
    if s.digit && !s.point && !s.exponent then some { next with point := true } else none
  else if c = 'e' ∨ c = 'E' then
    if s.digit && !s.exponent then some { next with exponent := true } else none
  else none

/-- The longest front that the states admit. -/
def frontFrom (s : FrontState) : List Char → List Char
  | [] => []
  | c :: rest =>
    match s.step c with
    | some s => c :: frontFrom s rest
    | none => []

/-- Does a number not end with this character? -/
def isLoose (c : Char) : Bool :=
  c == 'e' || c == 'E' || c == '.' || c == '_' || c == '+' || c == '-'

/-- The longest front that looks like a decimal number. -/
def numberFront (text : List Char) : List Char :=
  Text.trimEndWith isLoose (frontFrom ⟨none, false, false, false⟩ text)

/-- The double at the front of the text, after blanks; zero if none is there. -/
def ofFront (text : List Char) : Double :=
  (ofDecimal? (Integer.dropUnderscores (numberFront (Text.trimStart text)))).getD (zero false)

/-- The interpreter writes numbers from a ten-thousandth up to ten quadrillion in positional
notation, always with a digit after the point. -/
def style : DecimalStyle :=
  ⟨some (-4), some 16, 1, "Infinity".toList, "NaN".toList⟩

/-- The text of a double in the interpreter. -/
def text (x : Double) : String :=
  String.ofList (style.write x)

/-- The host writes all numbers in positional notation. -/
def plainStyle : DecimalStyle :=
  ⟨none, none, 0, "inf".toList, "NaN".toList⟩

/-- The text of a double in messages of the host. -/
def plainText (x : Double) : String :=
  String.ofList (plainStyle.write x)

end EmbeddedRuby.Double
