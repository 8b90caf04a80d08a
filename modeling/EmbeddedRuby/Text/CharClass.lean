import EmbeddedRuby.Text.LetterRanges

/-!
# Character classes

The classes of characters that names, scripts and quoted text are made of.  Capitals and digits are
ASCII; each of the others is a property of the whole of Unicode, and agrees with the usual ASCII
class below `0x80`.

* `isBlank`: the property *White_Space*; it separates tokens and is trimmed from numbers.
* `isControl`: the general category *Cc*; such characters are escaped when text is quoted.
* `isNameStart` and `isWordChar`: what an identifier starts with and goes on with: a letter of any
  script or the underscore, and after that a numeral too.

Main statement: an identifier may go on with whatever it may start with
(`isWordChar_of_isNameStart`).
-/

namespace EmbeddedRuby.Text

/-- White space in the sense of Unicode's *White_Space*: twenty-five characters, the line and
paragraph separators and the ideographic space among them, the zero-width ones not. -/
def isBlank (c : Char) : Bool :=
  let n := c.toNat
  (9 ≤ n && n ≤ 13) || n == 0x20 || n == 0x85 || n == 0xA0 || n == 0x1680 ||
    (0x2000 ≤ n && n ≤ 0x200A) || n == 0x2028 || n == 0x2029 || n == 0x202F || n == 0x205F ||
    n == 0x3000

/-- The control characters: the two blocks of 32 and the delete character before the second. -/
def isControl (c : Char) : Bool :=
  let n := c.toNat
  n < 0x20 || (0x7F ≤ n && n < 0xA0)

/-- An ASCII capital letter, with which every constant name starts. -/
def isCapital (c : Char) : Bool :=
  let n := c.toNat
  0x41 ≤ n && n ≤ 0x5A

/-- An ASCII digit. -/
def isDigit (c : Char) : Bool :=
  let n := c.toNat
  0x30 ≤ n && n ≤ 0x39

/-- A letter of any script. -/
def isLetter (c : Char) : Bool :=
  let n := c.toNat
  if n < 0x80 then (0x41 ≤ n && n ≤ 0x5A) || (0x61 ≤ n && n ≤ 0x7A)
  else inRanges alphabeticRanges n

/-- A numeral of any script, fractions and Roman numerals included. -/
def isNumeral (c : Char) : Bool :=
  let n := c.toNat
  if n < 0x80 then 0x30 ≤ n && n ≤ 0x39 else inRanges numericRanges n

/-- A letter or a numeral. -/
def isAlphanumeric (c : Char) : Bool :=
  isLetter c || isNumeral c

/-- May an identifier start with this character? -/
def isNameStart (c : Char) : Bool :=
  isLetter c || c == '_'

/-- May an identifier go on with this character? -/
def isWordChar (c : Char) : Bool :=
  isAlphanumeric c || c == '_'

theorem isWordChar_of_isNameStart {c : Char} (h : isNameStart c = true) : isWordChar c = true := by
  simp only [isNameStart, isWordChar, isAlphanumeric, Bool.or_eq_true] at h ⊢
  rcases h with h | h
  · exact Or.inl (Or.inl h)
  · exact Or.inr h

theorem isLetter_of_isCapital {c : Char} (h : isCapital c = true) : isLetter c = true := by
  simp only [isCapital, Bool.and_eq_true, decide_eq_true_eq] at h
  have hlt : c.toNat < 0x80 := by omega
  simp [isLetter, hlt, h.1, h.2]

end EmbeddedRuby.Text
