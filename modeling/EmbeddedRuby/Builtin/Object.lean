import EmbeddedRuby.Machine.Conversion

/-!
# Methods of all objects, of modules and of classes

What every object answers to, printing, and how modules and classes show themselves, find constants
and make new objects.

`newKind?` is the heart of `new`: the contents of a new object are fixed by the first class above
its own that has contents of a kind; classes with none of these above them make plain objects.
-/

namespace EmbeddedRuby

namespace Eval

variable {σ : Type}

/-- Refuse a call with too few or too many arguments. -/
def checkArity (call : Call σ) (least most : Nat) : Eval σ Unit := do
  let given := call.args.length
  if given < least ∨ most < given then raise (.argumentCount given least most)

/-- Print a text. -/
def print (text : String) : Eval σ Unit :=
  changeMachine fun m => m.print text

end Eval

namespace Methods

open Eval

variable {σ : Type}

/-- An object without a form of its own: its class and its word. -/
def showPlain (call : Call σ) : Eval σ Value := do
  let cls := (← machine).className call.receiver
  newText (s!"#<{cls}:0x" ++ String.ofList (Numeral.hex 16 call.receiver.word.toNat) ++ ">")

/-- Is the argument the same object? -/
def isSame (call : Call σ) : Eval σ Value := do
  checkArity call 1 1
  return Value.ofBool (call.receiver == call.arg 0)

/-- Is the class of the object the argument or below it? -/
def isA (call : Call σ) : Eval σ Value := do
  checkArity call 1 1
  let m ← machine
  if (m.heap.module? (call.arg 0)).isSome then
    return Value.ofBool (m.heap.isKindOf call.receiver (call.arg 0))
  else raise .moduleRequired

/-- The text with a line feed at its end. -/
def asLine (text : String) : String :=
  if text.toList.getLast? = some '\n' then text else text ++ "\n"

/-- The path of a module, nil for an anonymous one. -/
def pathOfModule (call : Call σ) : Eval σ Value := do
  match ((← machine).heap.module? call.receiver).bind ModuleData.name with
  | some name => newText name
  | none => return Value.nil

/-- The classes whose objects have contents of a kind, and those that make no objects. -/
def kindClasses : List CoreClass :=
  [.array, .hash, .string, .exception, .classClass, .moduleClass, .integer, .float, .symbol,
    .nilClass, .trueClass, .falseClass, .procClass]

/-- The first of these classes that stands above a class or is the class itself. -/
def newKind? (h : Heap) (cls : Value) : Option CoreClass :=
  (h.ancestors cls).findSome? fun ancestor => kindClasses.find? fun c => c.value == ancestor

variable (r : Reentry σ)

/-- Not what `==` says. -/
def notEqual (call : Call σ) : Eval σ Value := do
  checkArity call 1 1
  let equal ← r.sendNamed call.receiver "==" call.args
  return Value.ofBool (!equal.isTruthy)

def respondTo (call : Call σ) : Eval σ Value := do
  checkArity call 1 2
  let name ← r.nameOf (call.arg 0)
  return Value.ofBool (← respondsTo call.receiver name)

/-- Print one argument of `puts`: the items of an array a line each, anything else a line. -/
def putsOne (v : Value) : Eval σ Unit := do
  match (← machine).heap.items? v with
  | some items =>
    let texts ← items.mapM r.displayText
    texts.forM fun text => print (asLine text)
  | none => print (asLine (← r.displayText v))

/-- Print the arguments, or an empty line if there are none. -/
def putsAll (call : Call σ) : Eval σ Value := do
  if call.args = [] then print "\n"
  call.args.forM (putsOne r)
  return Value.nil

/-- Print how the arguments are shown, and give them back. -/
def showAll (call : Call σ) : Eval σ Value := do
  call.args.forM fun v => do print ((← r.inspectText v) ++ "\n")
  match call.args with
  | [] => return Value.nil
  | [v] => return v
  | many => onMachine fun m => m.newArray many

/-- The names of a path of constants; a `::` at the front says nothing. -/
def pathNames (path : String) : List String :=
  (Text.splitOn [':', ':'] (Text.dropFronts [':', ':'] path.toList)).map String.ofList

def constGet (call : Call σ) : Eval σ Value := do
  checkArity call 1 2
  let name ← r.nameOf (call.arg 0)
  r.constantPath call.receiver (pathNames name)

def classVariableGet (call : Call σ) : Eval σ Value := do
  checkArity call 1 1
  let id ← intern (← r.nameOf (call.arg 0))
  classVar call.receiver id

/-- More items than this do not fit in memory at all. -/
def arrayLimit : Int := 0x1000000000000000

/-- The items of a new array: nils, or copies of the second argument. -/
def newItems (call : Call σ) : Eval σ (List Value) := do
  checkArity call 0 2
  let size ←
    match call.args.head? with
    | some size => r.toLong size
    | none => pure 0
  if arrayLimit ≤ size then crash "capacity overflow"
  return List.replicate size.toNat (call.arg 1)

/-- A new plain object, to which `initialize` is sent if it has it. -/
def newPlain (call : Call σ) : Eval σ Value := do
  let object ← onMachine fun m => m.alloc call.receiver .plain
  if ← respondsTo object "initialize" then
    let _ ← r.sendNamed object "initialize" call.args
  return object

/-- A new object of the class. -/
def new (call : Call σ) : Eval σ Value := do
  let cls := call.receiver
  let alloc (body : Body) : Eval σ Value := onMachine fun m => m.alloc cls body
  match newKind? (← machine).heap cls with
  | some .array => alloc (.array (← newItems r call))
  | some .hash => alloc (.hash [])
  | some .string => do
    checkArity call 0 1
    let text ←
      match call.args.head? with
      | some v => r.displayText v
      | none => pure ""
    alloc (.string (Utf8.encodeString text))
  | some .exception => do
    checkArity call 0 1
    alloc (.exception (call.arg 0) Value.nil)
  | some .classClass => do
    checkArity call 0 1
    let superclass := call.args.head?.getD CoreClass.object.value
    onMachine fun m => m.newModule none (some superclass)
  | some .moduleClass => onMachine fun m => m.newModule none none
  | some _ => raise (.undefinedMethod "new" ((← machine).describe cls))
  | none => newPlain r call

end Methods

end EmbeddedRuby
