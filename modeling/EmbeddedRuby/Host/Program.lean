import EmbeddedRuby.Host.BlockReturn
import EmbeddedRuby.Host.BootInfo
import EmbeddedRuby.Host.Scalar
import EmbeddedRuby.Machine.Method
import EmbeddedRuby.Object.Heap

/-!
# Host programs

The host drives the interpreter and is called back by it: a block or a proc can be code of the
host's, and that code can again use the interpreter.  A `Program` is such code as a tree.  Each node
asks for one thing and has a branch for every answer, so a program can decide anything but can touch
the interpreter only through what it asks for.

* `Operation`: what a host may ask of the interpreter in the regular way.
* `Probe`: what it can do to the runtime underneath, past all checks.
* `callWithBlock`, `newProc`, `register`: the operations that hand over code of the host's.
* `recall`, `remember`: the host's own memory, shared by all its programs.

A program has a `Role`, which says what it gives when it is done.  It may also fail with a bug of
its own, a **panic**; a panic that passes through something that the program asked for comes back
as the answer, so a program can catch it or go on with it.
-/

namespace EmbeddedRuby

/-- Where the life of the interpreter has got to. -/
inductive VmState where
  | unknown
  | failed (error : Error)
  | up
  | cleanedUp
deriving DecidableEq, Repr

/-- What can be asked of the interpreter in the regular way. -/
inductive Operation where
  | setup (info : BootInfo)
  | cleanUp
  | state
  /-- The errors in the history. -/
  | errors
  | mostRecentError
  | clearErrors
  /-- Put an error in the history and hand it back. -/
  | raise (error : Error)
  | version
  | description
  | objectClass
  /-- The number of a name. -/
  | internedName (name : String)
  | load (path : List UInt8) (wrap : Bool)
  /-- Follow the path of a constant from the top. -/
  | constant (path : String)
  | constantIn (module : Value) (name : String)
  | constantAt (module : Value) (name : String)
  | classVar (cls : Value) (name : String)
  | call (receiver : Value) (method : String) (args : List Value)
  | callWithKeywords (receiver : Value) (method : String) (args : List Value)
      (keywords : List (String × Value))
  | callWithProc (receiver : Value) (method : String) (args : List Value) (proc : Value)
  | callProc (proc : Value) (args : List Value) (block : Option Value)
  | newException (cls message : String)
  | inspect (value : Value)
  | toText (value : Value)
  | toUnsigned (value : Value)
  | toSigned (value : Value)
  | toDouble (value : Value)
  | readInt (type : IntType) (value : Value)
  | readDouble (value : Value)
  | readSingle (value : Value)
  | readBool (value : Value)
  | readText (value : Value)
  | writeInt (type : IntType) (n : Int)
  | writeDouble (number : Double)
  | writeSingle (number : Single)
  | writeBool (b : Bool)
  | writeText (text : String)
  /-- Keep an object alive by a new root. -/
  | pin (value : Value)
  | unpin (root : Nat)

/-- The type of the answer to an operation. -/
def Operation.Reply : Operation → Type
  | setup _ => Except Error Bool
  | cleanUp => Int
  | state => VmState
  | errors => List Error
  | mostRecentError => Option Error
  | clearErrors | unpin _ => Unit
  | raise _ => Error
  | version | description | inspect _ | toText _ => Except Error String
  | objectClass | constant _ | constantIn .. | constantAt .. | classVar .. | call ..
  | callWithKeywords .. | callWithProc .. | callProc .. | newException .. | writeInt ..
  | writeDouble _ | writeSingle _ | writeBool _ | writeText _ => Except Error Value
  | internedName _ => Except Error SymbolId
  | load .. => Except Error Unit
  | toUnsigned _ => Except Error Nat
  | toSigned _ => Except Error Int
  | toDouble _ => Except Error Double
  | readInt .. => Option Int
  | readDouble _ => Option Double
  | readSingle _ => Option Single
  | readBool _ => Option Bool
  | readText _ => Option String
  | pin _ => Except Error Nat

/-- What has been asked of the runtime so far. -/
structure Counts where
  setup : Nat
  cleanup : Nat
  intern : Nat
  pinned : Nat
  history : Nat

/-- What can be done to the runtime underneath. -/
inductive Probe where
  | make (datum : Datum)
  | typeOf (value : Value)
  /-- The pending exception, or nil. -/
  | pending
  | setPending (value : Value)
  /-- Run a task behind the barrier. -/
  | attempt (task : Task)
  | counts
  /-- What was printed since this was asked last. -/
  | takePrinted
  /-- Take in a command line. -/
  | options (argv : List String)
  | define (cls : Value) (name : String) (body : Invocation → Routine)
  /-- The number of a name, not counted as asked for. -/
  | internedName (name : String)

/-- The type of the answer to a probe. -/
def Probe.Reply : Probe → Type
  | make _ | pending => Value
  | typeOf _ => ValueType
  | setPending _ | define .. => Unit
  | attempt task => Except Int task.Result
  | counts => Counts
  | takePrinted => String
  | options _ => Bool
  | internedName _ => SymbolId

/-- A bug of the host's that has come up. -/
structure Panic where
  message : String
deriving DecidableEq, Repr

/-- What a program gets back: an answer, or a panic on the way. -/
abbrev Answer (α : Type) := Except Panic α

/-- What a program is for. -/
inductive Role where
  | block
  | callback
  | main
deriving DecidableEq, Repr

/-- What a program gives when it is done. -/
def Role.Result : Role → Type
  | block => BlockReturn
  | callback => RawReturn
  | main => Unit

/-- The two kinds of callbacks that the host can replace. -/
inductive CallbackKind where
  | block
  | proc
deriving DecidableEq, Repr

/-- What a callback of the host's is given. -/
structure CallbackInput where
  /-- Was the callback handed a block or proc body of the host's? -/
  hasBody : Bool
  args : List Value
  blockArg : Value

/-- Code of the host's, with a memory of type `σ`. -/
inductive Program (σ : Type) : Role → Type where
  | done {role : Role} (result : role.Result) : Program σ role
  | panic {role : Role} (message : String) : Program σ role
  | recall {role : Role} (next : σ → Program σ role) : Program σ role
  | remember {role : Role} (memory : σ) (next : Program σ role) : Program σ role
  | ask {role : Role} (operation : Operation)
      (next : Answer operation.Reply → Program σ role) : Program σ role
  | probe {role : Role} (probe : Probe)
      (next : Answer probe.Reply → Program σ role) : Program σ role
  | callWithBlock {role : Role} (receiver : Value) (method : String) (args : List Value)
      (body : List Value → Program σ .block)
      (next : Answer (Except Error Value) → Program σ role) : Program σ role
  | newProc {role : Role} (body : List Value → Program σ .block)
      (next : Answer (Except Error Value) → Program σ role) : Program σ role
  | register {role : Role} (kind : CallbackKind) (callback : CallbackInput → Program σ .callback)
      (next : Answer (Except Error Unit) → Program σ role) : Program σ role

/-- A block or proc body of the host's. -/
abbrev Closure (σ : Type) := List Value → Program σ .block

end EmbeddedRuby
