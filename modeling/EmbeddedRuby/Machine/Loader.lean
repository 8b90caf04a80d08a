import EmbeddedRuby.Machine.Reentry
import EmbeddedRuby.Source.Reader

/-!
# Loading scripts

A script is found along the load path, parsed as a whole, and then run statement by statement.  A
script that does not parse is not run at all.

While a script runs, `Bodies` holds the modules whose bodies are open, the innermost first, and for
each body how many frames there were before it, so that closing it takes its frame away.  A constant
is looked up in the open bodies from the inside out, and then from the innermost one on up.
-/

namespace EmbeddedRuby

/-- The bodies of a script that are open. -/
structure Bodies where
  /-- The modules, the innermost first; the last one is the top level. -/
  scopes : List Value
  /-- How many frames there were before each body was opened. -/
  marks : List Nat

/-- The module that definitions go to. -/
def Bodies.innermost (b : Bodies) : Value :=
  b.scopes.head?.getD CoreClass.object.value

namespace Loader

open Eval

variable {σ : Type} (r : Reentry σ)

/-- The constant that a path written in a script means. -/
def resolve (b : Bodies) (path : List (List Char)) : Eval σ Value := do
  match path with
  | [] => return Value.nil
  | first :: rest =>
    let start ←
      if first = [] then pure CoreClass.object.value
      else do
        let id ← intern (String.ofList first)
        let h := (← machine).heap
        match b.scopes.findSome? fun scope => h.constantAt? scope id with
        | some value => pure value
        | none => r.constant b.innermost id false
    r.constantPath start (rest.map String.ofList)

mutual

/-- The value of an expression. -/
def evaluate (b : Bodies) : Literal → Eval σ Value
  | .nil => return Value.nil
  | .true => return Value.ofBool true
  | .false => return Value.ofBool false
  | .int n => onMachine fun m => m.newInteger n
  | .float x => onMachine fun m => m.newFloat x
  | .string text => newText (String.ofList text)
  | .symbol name => do return Value.ofSymbol (← intern (String.ofList name))
  | .array items => do
    let values ← evaluateAll b items
    onMachine fun m => m.newArray values
  | .constant path => resolve r b path

/-- The values of expressions, from the left. -/
def evaluateAll (b : Bodies) : List Literal → Eval σ (List Value)
  | [] => return []
  | item :: rest => do
    let value ← evaluate b item
    let values ← evaluateAll b rest
    return value :: values

end

/-- The module that a body reopens, which has to be of the right kind and superclass. -/
def reopen (name : String) (isClass : Bool) (existing : Value) (superclass : Option Value) :
    Eval σ Value := do
  match (← machine).heap.module? existing with
  | some data =>
    if data.isClass != isClass then raise (.otherKind name (if isClass then "class" else "module"))
    else if superclass.isSome && superclass != data.superclass then raise (.superclassMismatch name)
    else return existing
  | none => raise (.otherKind name (if isClass then "class" else "module"))

/-- A new module of the given path, as a constant of the innermost body. -/
def defineModule (parent : Value) (id : SymbolId) (name : String) (superclass : Option Value) :
    Eval σ Value := do
  onMachine fun m =>
    let (module, m) := m.newModule (some (m.qualifiedName parent name)) superclass
    (module, m.setConstant parent id module)

/-- The module whose body is opened. -/
def openModule (b : Bodies) (name : String) (path : Option (List (List Char))) (isClass : Bool) :
    Eval σ Value := do
  let id ← intern name
  let superclass ←
    match path with
    | some path => do pure (some (← resolve r b path))
    | none => pure none
  match (← machine).heap.constantAt? b.innermost id with
  | some existing => reopen name isClass existing superclass
  | none =>
    if isClass then
      let superclass := superclass.getD CoreClass.object.value
      let m ← machine
      if (m.heap.module? superclass).any ModuleData.isClass then
        defineModule b.innermost id name (some superclass)
      else raise (.superclassNotClass (m.describe superclass))
    else defineModule b.innermost id name none

/-- The bodies after another one has been opened, with a frame for it. -/
def enter (b : Bodies) (file label : String) (line : Nat) (module : Value) : Eval σ Bodies := do
  let depth := (← machine).frames.length
  changeMachine fun m => m.pushFrame file label line
  return ⟨module :: b.scopes, depth :: b.marks⟩

/-- The bodies after the innermost one has been closed, and its frame with it. -/
def leave (b : Bodies) : Eval σ Bodies := do
  match b.marks with
  | depth :: marks =>
    changeMachine fun m => { m with frames := truncate depth m.frames }
    return ⟨b.scopes.drop 1, marks⟩
  | [] => return ⟨b.scopes.drop 1, []⟩

/-- Raise what a `raise` statement says. -/
def raiseStatement {α : Type} (b : Bodies) (cls : Option (List (List Char)))
    (message : Option Literal) : Eval σ α := do
  let message ←
    match message with
    | some message => do pure (some (← evaluate r b message))
    | none => pure none
  match cls, message with
  | some path, message =>
    let cls ← resolve r b path
    raiseObject (← r.sendNamed cls "new" message.toList)
  | none, some message =>
    if (← machine).heap.typeOf message = .string then
      raiseObject (← r.sendNamed CoreClass.runtimeError.value "new" [message])
    else raise .exceptionExpected
  | none, none => raise .unhandled

/-- Run one statement. -/
def runStatement (file : String) (b : Bodies) (entry : Nat × Statement) : Eval σ Bodies := do
  let line := entry.1
  changeMachine fun m => m.setLine line
  match entry.2 with
  | .openClass name path =>
    let name := String.ofList name
    let cls ← openModule r b name path true
    enter b file (s!"<class:{name}>") line cls
  | .openModule name =>
    let name := String.ofList name
    let module ← openModule r b name none false
    enter b file (s!"<module:{name}>") line module
  | .close => leave b
  | .setConstant name value =>
    let value ← evaluate r b value
    let id ← intern (String.ofList name)
    changeMachine fun m => m.setConstant b.innermost id value
    return b
  | .setClassVar name value =>
    if b.scopes.length = 1 then raise .classVarAtTop
    else
      let value ← evaluate r b value
      let id ← intern (String.ofList name)
      changeMachine fun m => { m with heap := m.heap.setClassVar b.innermost id value }
      return b
  | .raise cls message => raiseStatement r b cls message
  | .puts args =>
    let values ← evaluateAll r b args
    let _ ← r.sendNamed b.innermost "puts" values
    return b
  | .p args =>
    let values ← evaluateAll r b args
    let _ ← r.sendNamed b.innermost "p" values
    return b

/-- The first file at one of the paths where a script is looked for. -/
def find? (m : Machine) (path : String) : Option (String × List UInt8) :=
  (LoadPath.candidates m.loadPath path).findSome? fun candidate =>
    (m.files.file? candidate).map fun bytes => (candidate, bytes)

/-- The path and the text of a script; a file that is no text cannot be loaded. -/
def read? (m : Machine) (path : String) : Option (String × List Char) :=
  match find? m path with
  | some (file, bytes) =>
    match Utf8.decode? bytes with
    | .ok text => some (file, text)
    | .error _ => none
  | none => none

/-- Run the script at a path; with `wrap` its top level is a new anonymous module. -/
def load (path : String) (wrap : Bool) : Eval σ Unit := do
  match read? (← machine) path with
  | none => raise (.cannotLoad path)
  | some (file, text) =>
    match Source.parse text with
    | .error e => raise (.syntaxFault file e)
    | .ok statements =>
      let top ←
        if wrap then onMachine fun m => m.newModule none none else pure CoreClass.object.value
      let depth := (← machine).frames.length
      changeMachine fun m => m.pushFrame file "<top (required)>" 0
      let _ ← statements.foldlM (runStatement r file) ⟨[top], []⟩
      changeMachine fun m => { m with frames := truncate depth m.frames }

/-- Run the script whose path is a string object. -/
def loadObject (path : Value) (wrap : Bool) : Eval σ Unit := do
  let m ← machine
  match m.heap.bytes? path with
  | some bytes => load r (Utf8.stringLossy bytes) wrap
  | none => raise (.noImplicitString (m.describe path))

end Loader

end EmbeddedRuby
