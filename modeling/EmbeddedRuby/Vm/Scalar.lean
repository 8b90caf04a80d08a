import EmbeddedRuby.Number.Digits
import EmbeddedRuby.Vm.Call

/-!
# Reading and writing scalars

Reading an object as a number, a truth value or a text of the host's asks the interpreter for the
conversion and then checks that the result fits.  `writeInt` and its kin make objects of scalars;
they need nothing but an interpreter that is up.
-/

namespace EmbeddedRuby

namespace Vm

open Eval

variable {σ : Type} (r : Reentry σ)

/-- The text that shows an object. -/
def inspect (v : Value) : Checked σ String := do
  ensureSetup
  let bytes : List UInt8 ← attempt r (.inspectBytes v)
  return Utf8.stringLossy bytes

/-- The text of an object, which has to be UTF-8. -/
def toText (v : Value) : Checked σ String := do
  ensureSetup
  let bytes : List UInt8 ← attempt r (.stringBytes v)
  match Utf8.decode? bytes with
  | .ok text => return String.ofList text
  | .error fault => fail (.badType ("string is not UTF-8: " ++ fault.message))

/-- An unsigned number of 64 bits. -/
def toUnsigned (v : Value) : Checked σ Nat := do
  ensureSetup
  attempt r (.toUnsigned v)

/-- A signed number of 64 bits. -/
def toSigned (v : Value) : Checked σ Int := do
  ensureSetup
  attempt r (.toSigned v)

def toDouble (v : Value) : Checked σ Double := do
  ensureSetup
  attempt r (.toDouble v)

/-- The error for a number that is not of a type. -/
def misfit (number type : String) : Error :=
  .badType (number ++ " does not fit in " ++ type)

/-- Refuse a number that is not of the type. -/
def ensureHeld (type : IntType) (n : Int) : Checked σ Int := do
  if type.holds n then return n
  else fail (misfit (String.ofList (Numeral.decimalInt n)) type.name)

/-- A number of an integer type; numbers without sign are converted without sign. -/
def readInt (type : IntType) (v : Value) : Checked σ Int := do
  if type.isSigned then ensureHeld type (← toSigned r v)
  else ensureHeld type (← toUnsigned r v)

/-- Is the number finite and beyond single precision? -/
def exceedsSingle (x : Double) : Bool :=
  x.value?.any fun q => Single.maxValue < q || q < -Single.maxValue

/-- A number of single precision, rounded to the nearest. -/
def readSingle (v : Value) : Checked σ Single := do
  let x ← toDouble r v
  if exceedsSingle x then fail (misfit x.plainText "f32")
  else return x.narrow

/-- The word of an object as text. -/
def wordText (v : Value) : String :=
  "0x" ++ String.ofList (Numeral.hex 1 v.word.toNat)

/-- A truth value, which is nothing but true or false. -/
def readBool (v : Value) : Checked σ Bool := do
  if v = Value.ofBool true then return true
  else if v = Value.ofBool false then return false
  else
    match ← ExceptT.lift (settled r (inspect r v)) with
    | .ok text => fail (.badType (text ++ " is not true or false"))
    | .error _ => fail (.badType (wordText v ++ " is not true or false"))

/-- Make something into an object. -/
def write (datum : Datum) : Checked σ Value := do
  ensureSetup
  ExceptT.lift (onMachine fun m => m.make datum)

/-- One of the objects true and false. -/
def writeBool (b : Bool) : Checked σ Value := do
  ensureSetup
  return Value.ofBool b

end Vm

end EmbeddedRuby
