import EmbeddedRuby.Machine.FileTree
import EmbeddedRuby.Machine.Method
import EmbeddedRuby.Number.Digits
import EmbeddedRuby.Object.Heap
import EmbeddedRuby.Object.SymbolTable
import EmbeddedRuby.Text.Utf8

/-!
# The state of the interpreter

`Machine` holds everything the interpreter knows: its objects and names, its methods, the pending
exception, the stack of script bodies that are being run (`frames`) and the stack of blocks that are
being run (`yields`), the roots that the host keeps objects alive by, and counts of what the host
asked for.  `Machine.boot` is a fresh one: the core classes, their constants and the interpreter's
own methods.

The functions of this module do not call methods, so they give an answer and a state and nothing
else can happen.
-/

namespace EmbeddedRuby

/-- A script body that is being run. -/
structure Frame where
  file : String
  line : Nat
  label : String
deriving DecidableEq, Repr

/-- The line of a backtrace. -/
def Frame.render (f : Frame) : String :=
  s!"{f.file}:{f.line}:in '{f.label}'"

/-- The state of the interpreter. -/
structure Machine where
  heap : Heap := {}
  symbols : SymbolTable := {}
  methods : Table (Value × SymbolId) Method := {}
  /-- The pending exception, or nil. -/
  errinfo : Value := Value.nil
  /-- Script bodies that are being run, the innermost first. -/
  frames : List Frame := []
  /-- Where a break out of each running block goes, the innermost block first. -/
  yields : List (Option Nat) := []
  /-- The number of the latest iteration. -/
  lastTarget : Nat := 1
  /-- The directories in which scripts are looked for. -/
  loadPath : List String := []
  /-- The registered roots, by their places. -/
  roots : List Nat := []
  initialized : Bool := false
  /-- What setting up reports. -/
  setupCode : Int := 0
  /-- What cleaning up reports, if not what it is told. -/
  cleanupCode : Option Int := none
  setupCalls : Nat := 0
  cleanupCalls : Nat := 0
  internCalls : Nat := 0
  /-- How often a script has set a constant that its module had already.  No run looks at this number;
  it is there to say of a run that it overwrites no constant. -/
  overwrites : Nat := 0
  /-- What scripts and methods have printed, the latest first. -/
  printed : List String := []
  files : FileTree := {}
  /-- Directories to search besides those given, as one text with colons. -/
  searchPath : Option String := none

namespace Machine

/-- The machine with a new object, and the object. -/
def alloc (m : Machine) (cls : Value) (body : Body) : Value × Machine :=
  let (value, heap) := m.heap.alloc cls body
  (value, { m with heap })

def newString (m : Machine) (bytes : List UInt8) : Value × Machine :=
  m.alloc CoreClass.string.value (.string bytes)

def newText (m : Machine) (text : String) : Value × Machine :=
  m.newString (Utf8.encodeString text)

def newFloat (m : Machine) (number : Double) : Value × Machine :=
  m.alloc CoreClass.float.value (.float number)

def newArray (m : Machine) (items : List Value) : Value × Machine :=
  m.alloc CoreClass.array.value (.array items)

def newInteger (m : Machine) (n : Int) : Value × Machine :=
  let (value, heap) := m.heap.ofInteger n
  (value, { m with heap })

/-- The number of a name. -/
def intern (m : Machine) (name : String) : SymbolId × Machine :=
  let (id, symbols) := m.symbols.intern name
  (id, { m with symbols })

/-- A new class under `superclass`, or a new module if there is none. -/
def newModule (m : Machine) (name : Option String) (superclass : Option Value) :
    Value × Machine :=
  let cls := if superclass.isSome then CoreClass.classClass else CoreClass.moduleClass
  m.alloc cls.value (.ofModule { name, isClass := superclass.isSome, superclass })

/-- The machine with a constant of a module, in place of any other of that name. -/
def setConstant (m : Machine) (module : Value) (id : SymbolId) (value : Value) : Machine :=
  let old := m.heap.constantAt? module id
  { m with
    heap := m.heap.setConstant module id value
    overwrites := if old.isSome then m.overwrites + 1 else m.overwrites }

/-- The path of a module, or a text with its word if it is anonymous. -/
def moduleName (m : Machine) (module : Value) : String :=
  let anonymous (kind : String) : String :=
    s!"#<{kind}:0x" ++ String.ofList (Numeral.hex 16 module.word.toNat) ++ ">"
  match m.heap.module? module with
  | some data =>
    match data.name with
    | some name => name
    | none => anonymous (if data.isClass then "Class" else "Module")
  | none => anonymous "Module"

/-- The name of the class of an object. -/
def className (m : Machine) (v : Value) : String :=
  m.moduleName (m.heap.classOf v)

/-- The path of a constant of a module. -/
def qualifiedName (m : Machine) (parent : Value) (name : String) : String :=
  if parent = CoreClass.object.value then name else m.moduleName parent ++ "::" ++ name

/-- An object as messages about missing methods name it. -/
def describe (m : Machine) (v : Value) : String :=
  match m.heap.typeOf v with
  | .nil => "nil"
  | .true => "true"
  | .false => "false"
  | .module =>
    let kind := if (m.heap.module? v).any ModuleData.isClass then "class " else "module "
    kind ++ m.moduleName v
  | _ => "an instance of " ++ m.className v

/-- An object as messages about conversions name it. -/
def subject (m : Machine) (v : Value) : String :=
  match m.heap.typeOf v with
  | .nil => "nil"
  | .true => "true"
  | .false => "false"
  | _ => m.className v

/-- The method that a class has under a name, itself or from above. -/
def findMethod (m : Machine) (cls : Value) (id : SymbolId) : Option Method :=
  (m.heap.ancestors cls).findSome? fun module => m.methods.get? (module, id)

/-- Does an object have a method of this name? -/
def respondsTo (m : Machine) (v : Value) (id : SymbolId) : Bool :=
  (m.findMethod (m.heap.classOf v) id).isSome

/-- The machine with a method of a class, in place of any other of that name. -/
def define (m : Machine) (cls : Value) (name : String) (method : Method) : Machine :=
  let (id, m) := m.intern name
  { m with methods := m.methods.insert (cls, id) method }

/-- Texts as new strings. -/
def newTexts (m : Machine) : List String → List Value × Machine
  | [] => ([], m)
  | text :: rest =>
    let (value, m) := m.newText text
    let (values, m) := m.newTexts rest
    (value :: values, m)

/-- The frames as a new array of strings, the innermost first. -/
def backtrace (m : Machine) : Value × Machine :=
  let (lines, m) := m.newTexts (m.frames.map Frame.render)
  m.newArray lines

/-- Are two keys of a hash the same: the same object, strings with the same bytes, or the same
integer? -/
def sameKey (m : Machine) (a b : Value) : Bool :=
  if a = b then true
  else
    match m.heap.bytes? a, m.heap.bytes? b with
    | some a, some b => a == b
    | _, _ =>
      match m.heap.int? a, m.heap.int? b with
      | some a, some b => a == b
      | _, _ => false

/-- Pairs with `value` under `key`, in the key's place if it is there, else at the end. -/
def storePair (m : Machine) (key value : Value) : List (Value × Value) → List (Value × Value)
  | [] => [(key, value)]
  | (k, v) :: rest =>
    if m.sameKey k key then (k, value) :: rest else (k, v) :: m.storePair key value rest

/-- The machine with `value` stored in a hash; nothing else has pairs to change. -/
def storeInHash (m : Machine) (hash key value : Value) : Machine :=
  match m.heap.pairs? hash with
  | some pairs => { m with heap := m.heap.setBody hash (.hash (m.storePair key value pairs)) }
  | none => m

/-- The value stored in a hash under a key. -/
def lookUpInHash (m : Machine) (hash key : Value) : Option Value :=
  (((m.heap.pairs? hash).getD []).find? fun pair => m.sameKey pair.1 key).map Prod.snd

/-- A datum as an object. -/
def make (m : Machine) : Datum → Value × Machine
  | .int n => m.newInteger n
  | .float number => m.newFloat number
  | .string bytes => m.newString bytes
  | .symbol name =>
    let (id, m) := m.intern name
    (Value.ofSymbol id, m)
  | .array items => m.newArray items
  | .hash pairs =>
    let (hash, m) := m.alloc CoreClass.hash.value (.hash [])
    (hash, pairs.foldl (fun m pair => m.storeInHash hash pair.1 pair.2) m)

/-- The state after the bytes of a text have been printed. -/
def print (m : Machine) (text : String) : Machine :=
  { m with printed := text :: m.printed }

/-- Everything printed so far. -/
def output (m : Machine) : String :=
  String.join m.printed.reverse

/-- The core classes as objects, each with its name and superclass. -/
def coreSlots : Array Slot :=
  (CoreClass.all.map fun c =>
    let isClass := c != .kernel
    let superclass := c.superclass?.map CoreClass.value
    let cls := if isClass then CoreClass.classClass else CoreClass.moduleClass
    Slot.mk cls.value (.ofModule { name := some c.name, isClass, superclass })).toArray

/-- The machine with a constant of `Object` for a core class. -/
def nameCoreClass (m : Machine) (c : CoreClass) : Machine :=
  let (id, m) := m.intern c.name
  { m with heap := m.heap.setConstant CoreClass.object.value id c.value }

/-- The machine with the interpreter's own methods of a class. -/
def installClass (m : Machine) (entry : CoreClass × List (String × Builtin)) : Machine :=
  entry.2.foldl (fun m method => m.define entry.1.value method.1 (.builtin method.2)) m

/-- A fresh interpreter, not yet set up. -/
def boot : Machine :=
  builtinMethods.foldl installClass
    (CoreClass.all.foldl nameCoreClass { heap := ⟨coreSlots⟩ })

/-- Where the command line of the interpreter is read: the directories of `-I`, or `none` if it has
something that is not understood. -/
def readOptions : List String → Option (List String)
  | [] => some []
  | arg :: rest =>
    if arg ∈ ["--disable-gems", "--disable=gems", "-w", "-W", "-W0", "-W1", "-W2"] then
      readOptions rest
    else if arg = "-e" then
      match rest with
      | _ :: rest => readOptions rest
      | [] => none
    else if arg = "-I" then
      match rest with
      | directory :: rest => (readOptions rest).map (directory :: ·)
      | [] => none
    else
      match Text.dropFront? ['-', 'I'] arg.toList with
      | some directory => (readOptions rest).map (String.ofList directory :: ·)
      | none => none

/-- The directories of a search path. -/
def searchDirectories (path : String) : List String :=
  (Text.splitOn [':'] path.toList).map String.ofList

/-- Bring the interpreter up, and report a code; it is up if the code is zero. -/
def setUp (m : Machine) : Int × Machine :=
  (m.setupCode,
    { m with setupCalls := m.setupCalls + 1, initialized := m.initialized || m.setupCode == 0 })

/-- Take the interpreter down.  It reports the code that it is given unless it has its own. -/
def cleanUp (m : Machine) (code : Int) : Int × Machine :=
  (m.cleanupCode.getD code, { m with cleanupCalls := m.cleanupCalls + 1, initialized := false })

/-- Take in a command line, program name first.  Does it make a program that can be run? -/
def options (m : Machine) (argv : List String) : Bool × Machine :=
  match readOptions (argv.drop 1) with
  | none => (false, m)
  | some directories =>
    let searched := (m.searchPath.map searchDirectories).getD []
    (true, { m with loadPath := m.loadPath ++ directories ++ searched })

end Machine

end EmbeddedRuby
