import EmbeddedRuby.Number.Digits
import EmbeddedRuby.Text.CharClass

/-!
# Quoted text

How strings are shown: between double quotes, with a backslash before quotes and backslashes, short
escapes for four common control characters, and two hexadecimal digits for the others.  Symbols
whose names are plain identifiers are shown without quotes; `isPlainName` says which those are.
-/

namespace EmbeddedRuby.Text

/-- A double quote. -/
def doubleQuote : Char := '\x22'

/-- A single quote. -/
def singleQuote : Char := '\x27'

/-- The escape character. -/
def escapeChar : Char := '\x1b'

/-- A number below 256 as two hexadecimal digits, in capitals. -/
def hexByte (n : Nat) : List Char :=
  (Numeral.hex 2 n).map Char.toUpper

/-- How a character is written between double quotes. -/
def quoteChar (c : Char) : List Char :=
  if c = doubleQuote then ['\\', doubleQuote]
  else if c = '\\' then ['\\', '\\']
  else if c = '\n' then ['\\', 'n']
  else if c = '\t' then ['\\', 't']
  else if c = '\r' then ['\\', 'r']
  else if c = escapeChar then ['\\', 'e']
  else if isControl c then '\\' :: 'x' :: hexByte c.toNat
  else [c]

/-- The text between double quotes. -/
def quote (text : List Char) : List Char :=
  doubleQuote :: text.flatMap quoteChar ++ [doubleQuote]

/-- An identifier, which one of `?`, `!` and `=` may follow. -/
def isPlainName (name : List Char) : Bool :=
  let body :=
    match name.getLast? with
    | some c => if c = '?' ∨ c = '!' ∨ c = '=' then name.dropLast else name
    | none => name
  match body with
  | c :: rest => isNameStart c && rest.all isWordChar
  | [] => false

/-- A symbol as a literal. -/
def quoteSymbol (name : List Char) : List Char :=
  ':' :: if isPlainName name then name else quote name

end EmbeddedRuby.Text
