import EmbeddedRuby.Number.DecimalText
import EmbeddedRuby.Text.Quoted

/-!
# Scripts

The declarative part of the language that the loader understands: class and module bodies,
assignment of literals to constants and class variables, `raise`, `puts` and `p`.  A script has one
statement per line.

Text becomes statements in `EmbeddedRuby.Source.Reader`; what is no statement is a `SyntaxFault`.
-/

namespace EmbeddedRuby

/-- An expression: a literal, or the path of a constant. -/
inductive Literal where
  | nil
  | true
  | false
  | int (n : Int)
  | float (number : Double)
  | string (text : List Char)
  | symbol (name : List Char)
  | array (items : List Literal)
  /-- `A::B::C`; an empty first name stands for the `::` at the front of `::A`. -/
  | constant (path : List (List Char))

/-- A statement of a script. -/
inductive Statement where
  | openClass (name : List Char) (superclass : Option (List (List Char)))
  | openModule (name : List Char)
  | close
  | setConstant (name : List Char) (value : Literal)
  | setClassVar (name : List Char) (value : Literal)
  | raise (cls : Option (List (List Char))) (message : Option Literal)
  | puts (args : List Literal)
  | p (args : List Literal)

/-- Why a line is no statement, or a script not complete. -/
inductive SyntaxFault where
  | unexpected (token : List Char)
  | endOfInput
  | constantExpected (name : List Char)
  | openString
  | badNumber (text : List Char)
  | strayEnd
  | missingEnd
deriving DecidableEq, Repr

/-- The text of a syntax fault. -/
def SyntaxFault.message : SyntaxFault → String
  | unexpected token => s!"unexpected '{String.ofList token}'"
  | endOfInput => "unexpected end-of-input"
  | constantExpected name => s!"unexpected '{String.ofList name}', expecting constant name"
  | openString => "unterminated string meets end of file"
  | badNumber text => s!"invalid numeric literal '{String.ofList text}'"
  | strayEnd => "unexpected 'end'"
  | missingEnd => "unexpected end-of-input, expecting 'end'"

/-- A syntax fault and the number of its line. -/
structure SyntaxError where
  line : Nat
  fault : SyntaxFault
deriving DecidableEq, Repr

end EmbeddedRuby
