import EmbeddedRuby.Vm.Life

/-!
# Names that the host gives

A name is checked before anything else is done with it: a name that cannot be right is refused
without a question to the interpreter, which need not even be up.  `internedName` then asks for the
number of a name, once for each name.

A name with a NUL passes the checks for methods and is refused as a symbol.
-/

namespace EmbeddedRuby

namespace Vm

open Eval

variable {σ : Type} (r : Reentry σ)

/-- The name of a method is not empty and has no blanks. -/
def isMethodName (name : String) : Bool :=
  !name.isEmpty && name.toList.all fun c => !Text.isBlank c

/-- The name of a constant starts with an ASCII capital and goes on as an identifier. -/
def isConstantName (name : String) : Bool :=
  name.toList.head?.any Text.isCapital && name.toList.all Text.isWordChar

/-- The name of a class variable is an identifier after two signs, which may start with a digit. -/
def isClassVarName (name : String) : Bool :=
  match Text.dropFront? ['@', '@'] name.toList with
  | some rest => !rest.isEmpty && rest.all Text.isWordChar
  | none => false

/-- Could the name be meant for this? -/
def isName : IdentifierKind → String → Bool
  | .method => isMethodName
  | .constant => isConstantName
  | .classVariable => isClassVarName
  | .symbol => fun name => !name.toList.contains '\x00'

/-- Refuse a name that cannot be meant for this. -/
def checkName (kind : IdentifierKind) (name : String) : Checked σ Unit := do
  if isName kind name then return
  else fail (.badIdentifier kind name)

/-- The number of a name. -/
def internedName (name : String) : Checked σ SymbolId := do
  ensureSetup
  match (← get).ids.get? name with
  | some id => return id
  | none =>
    checkName .symbol name
    let id : SymbolId ← attempt r (.intern name)
    modify fun w => { w with ids := w.ids.insert name id }
    return id

/-- The number of a name that has to be good for this. -/
def checkedName (kind : IdentifierKind) (name : String) : Checked σ SymbolId := do
  checkName kind name
  internedName r name

end Vm

end EmbeddedRuby
