import EmbeddedRuby.Number.Double
import EmbeddedRuby.Object.CoreClass
import EmbeddedRuby.Object.Table

/-!
# The heap

Objects that do not fit in a word have a slot each, with their class and their contents.  Slots are
filled in order and never given back, so the word of an object stays good.

This module holds the slots, the classes as a tree (`ancestors`, `isKindOf`), what each object is
(`typeOf`, `classOf`, and the readers of contents), and the way from integers to objects
(`ofInteger`): an integer that fits in a word has no slot.

Following superclasses could in principle run in a circle, if somebody made up the word of a class
that does not exist yet; `ancestors` therefore goes no further than there are slots.
-/

namespace EmbeddedRuby

/-- A class or a plain module. -/
structure ModuleData where
  /-- The path under which it was defined; anonymous ones have none. -/
  name : Option String
  isClass : Bool
  superclass : Option Value
  constants : Table SymbolId Value := {}
  classVars : Table SymbolId Value := {}

/-- The contents of an object. -/
inductive Body where
  | float (number : Double)
  | bignum (number : Int)
  | string (bytes : List UInt8)
  | array (items : List Value)
  /-- Keys and values in the order in which the keys came. -/
  | hash (pairs : List (Value × Value))
  | ofModule (data : ModuleData)
  | plain
  | exception (message backtrace : Value)
  /-- The host code with this number. -/
  | proc (code : Nat)

/-- An object of the heap. -/
structure Slot where
  cls : Value
  body : Body

/-- The objects of the heap, by their slots. -/
structure Heap where
  slots : Array Slot := #[]

namespace Heap

/-- A new object, and the heap with it. -/
def alloc (h : Heap) (cls : Value) (body : Body) : Value × Heap :=
  (Value.ofSlot h.slots.size, ⟨h.slots.push ⟨cls, body⟩⟩)

/-- The object that a word refers to. -/
def slot? (h : Heap) (v : Value) : Option Slot :=
  v.slot?.bind fun index => h.slots[index]?

/-- The contents of an object of the heap. -/
def body? (h : Heap) (v : Value) : Option Body :=
  (h.slot? v).map Slot.body

/-- The heap with other contents for an object. -/
def setBody (h : Heap) (v : Value) (body : Body) : Heap :=
  match v.slot? with
  | some index => ⟨h.slots.modify index fun slot => { slot with body }⟩
  | none => h

/-- The kind of an object. -/
def typeOf (h : Heap) (v : Value) : ValueType :=
  if v = Value.ofBool false then .false
  else if v = Value.nil then .nil
  else if v = Value.ofBool true then .true
  else if v = Value.undef then .undef
  else if v.fixnum?.isSome then .fixnum
  else if v.symbol?.isSome then .symbol
  else
    match h.body? v with
    | some (.float _) => .float
    | some (.bignum _) => .bignum
    | some (.string _) => .string
    | some (.array _) => .array
    | some (.hash _) => .hash
    | some (.ofModule _) => .module
    | _ => .object

/-- The class of an object. -/
def classOf (h : Heap) (v : Value) : Value :=
  match h.typeOf v with
  | .nil => CoreClass.nilClass.value
  | .true => CoreClass.trueClass.value
  | .false => CoreClass.falseClass.value
  | .fixnum => CoreClass.integer.value
  | .symbol => CoreClass.symbol.value
  | _ => ((h.slot? v).map Slot.cls).getD CoreClass.object.value

/-- The class or module that an object is. -/
def module? (h : Heap) (v : Value) : Option ModuleData :=
  match h.body? v with
  | some (.ofModule data) => some data
  | _ => none

/-- The heap with `change` made to a class or module. -/
def changeModule (h : Heap) (v : Value) (change : ModuleData → ModuleData) : Heap :=
  match h.module? v with
  | some data => h.setBody v (.ofModule (change data))
  | none => h

/-- A module and its superclasses, at most `fuel` of them after it. -/
def chain (h : Heap) : Nat → Value → List Value
  | 0, v => [v]
  | fuel + 1, v =>
    match (h.module? v).bind ModuleData.superclass with
    | some parent => v :: h.chain fuel parent
    | none => [v]

/-- A module and its superclasses, nearest first. -/
def ancestors (h : Heap) (v : Value) : List Value :=
  h.chain h.slots.size v

/-- Is `parent` the class itself or above it? -/
def isSubclass (h : Heap) (cls parent : Value) : Bool :=
  (h.ancestors cls).contains parent

/-- Is `cls` the class of the object or above it? -/
def isKindOf (h : Heap) (v cls : Value) : Bool :=
  h.isSubclass (h.classOf v) cls

/-- The number of an integer. -/
def int? (h : Heap) (v : Value) : Option Int :=
  match v.fixnum? with
  | some n => some n
  | none =>
    match h.body? v with
    | some (.bignum n) => some n
    | _ => none

def float? (h : Heap) (v : Value) : Option Double :=
  match h.body? v with
  | some (.float number) => some number
  | _ => none

def bytes? (h : Heap) (v : Value) : Option (List UInt8) :=
  match h.body? v with
  | some (.string bytes) => some bytes
  | _ => none

def items? (h : Heap) (v : Value) : Option (List Value) :=
  match h.body? v with
  | some (.array items) => some items
  | _ => none

def pairs? (h : Heap) (v : Value) : Option (List (Value × Value)) :=
  match h.body? v with
  | some (.hash pairs) => some pairs
  | _ => none

/-- The message and the backtrace of an exception; nil for both of anything else. -/
def exceptionParts (h : Heap) (v : Value) : Value × Value :=
  match h.body? v with
  | some (.exception message backtrace) => (message, backtrace)
  | _ => (Value.nil, Value.nil)

/-- An integer as an object: in a word if it fits, else in a slot. -/
def ofInteger (h : Heap) (n : Int) : Value × Heap :=
  if fixnumMin ≤ n ∧ n ≤ fixnumMax then (Value.ofFixnum n, h)
  else h.alloc CoreClass.integer.value (.bignum n)

/-- The constant that a module itself defines. -/
def constantAt? (h : Heap) (module : Value) (id : SymbolId) : Option Value :=
  (h.module? module).bind fun data => data.constants.get? id

/-- The constant that a module, a class above it, or at last `Object` defines. -/
def constant? (h : Heap) (module : Value) (id : SymbolId) : Option Value :=
  (h.ancestors module ++ [CoreClass.object.value]).findSome? fun module => h.constantAt? module id

/-- The class variable that a class or a class above it has. -/
def classVar? (h : Heap) (cls : Value) (id : SymbolId) : Option Value :=
  (h.ancestors cls).findSome? fun module =>
    (h.module? module).bind fun data => data.classVars.get? id

def setConstant (h : Heap) (module : Value) (id : SymbolId) (value : Value) : Heap :=
  h.changeModule module fun data => { data with constants := data.constants.insert id value }

def setClassVar (h : Heap) (module : Value) (id : SymbolId) (value : Value) : Heap :=
  h.changeModule module fun data => { data with classVars := data.classVars.insert id value }

end Heap

end EmbeddedRuby
