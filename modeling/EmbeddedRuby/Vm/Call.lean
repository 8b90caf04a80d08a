import EmbeddedRuby.Vm.Name

/-!
# Constants, calls and procs

What the host can ask of the interpreter about its objects.  Each operation checks the names and
counts that it was given, brings the interpreter up if need be, and runs one task or several behind
the barrier; the first that fails ends it.
-/

namespace EmbeddedRuby

namespace Vm

open Eval

variable {σ : Type} (r : Reentry σ)

/-- The class of all objects. -/
def objectClass : Checked σ Value := do
  ensureSetup
  return CoreClass.object.value

/-- The constant that a module has, a class above it, or `Object`. -/
def constantIn (module : Value) (name : String) : Checked σ Value := do
  let id ← checkedName r .constant name
  attempt r (.constant module id)

/-- The constant that a module itself has. -/
def constantAt (module : Value) (name : String) : Checked σ Value := do
  let id ← checkedName r .constant name
  attempt r (.constantAt module id)

/-- The names of a path, which may start with any number of double colons. -/
def pathNames (path : String) : List String :=
  (Text.splitOn [':', ':'] (Text.dropFronts [':', ':'] path.toList)).map String.ofList

/-- The constant at the end of a path from `Object`. -/
def constant (path : String) : Checked σ Value := do
  (pathNames path).foldlM (constantIn r) (← objectClass)

def classVar (cls : Value) (name : String) : Checked σ Value := do
  let id ← checkedName r .classVariable name
  attempt r (.classVar cls id)

/-- Refuse more arguments than can be counted. -/
def checkCount (count : Nat) : Checked σ Unit := do
  if argumentLimit ≤ count then fail (.badParameter s!"too many arguments: {count}")
  else return

def call (receiver : Value) (method : String) (args : List Value) : Checked σ Value := do
  let id ← checkedName r .method method
  checkCount args.length
  attempt r (.call receiver id args false)

/-- The first name that stood in the list, or among `seen`, before. -/
def firstRepeated? (seen : List String) : List String → Option String
  | [] => none
  | name :: rest => if name ∈ seen then some name else firstRepeated? (name :: seen) rest

/-- Keywords with the numbers of their names. -/
def keywordIds : List (String × Value) → Checked σ (List (SymbolId × Value))
  | [] => return []
  | (name, value) :: rest => do
    let id ← internedName r name
    return (id, value) :: (← keywordIds rest)

/-- Call a method with keywords after the other arguments. -/
def callWithKeywords (receiver : Value) (method : String) (args : List Value)
    (keywords : List (String × Value)) : Checked σ Value := do
  checkName .method method
  match firstRepeated? [] (keywords.map Prod.fst), keywords with
  | some name, _ => fail (.duplicateKeyword name)
  | none, [] => call r receiver method args
  | none, keywords =>
    let id ← internedName r method
    let pairs ← keywordIds r keywords
    let hash : Value ← attempt r (.keywordHash pairs)
    checkCount (args.length + 1)
    attempt r (.call receiver id (args ++ [hash]) true)

/-- Call a method with a body of the host's as its block. -/
def callWithBlock (receiver : Value) (method : String) (args : List Value) (body : Closure σ) :
    Checked σ Value := do
  let id ← checkedName r .method method
  checkCount args.length
  match (← get).blockCallback with
  | some .closures => guarded (callWithClosure r receiver id args body)
  | _ =>
    fail (.badParameter
      "a custom block callback is registered, host closures cannot be blocks")

/-- Call a method with a proc as its block. -/
def callWithProc (receiver : Value) (method : String) (args : List Value) (proc : Value) :
    Checked σ Value := do
  let id ← checkedName r .method method
  checkCount args.length
  attempt r (.callWithProc receiver id args proc)

/-- Call a proc, perhaps with a block argument. -/
def callProc (proc : Value) (args : List Value) (block : Option Value) : Checked σ Value := do
  ensureSetup
  checkCount args.length
  attempt r (.callProc proc args (block.getD Value.nil))

/-- A new exception of a class. -/
def newException (cls message : String) : Checked σ Value := do
  let cls ← constant r cls
  let message ← ExceptT.lift (newText message)
  call r cls "new" [message]

/-- Run a script. -/
def load (path : List UInt8) (wrap : Bool) : Checked σ Unit := do
  ensureSetup
  match Utf8.decode? path with
  | .error _ => fail (.badParameter ("script path is not UTF-8: " ++ Utf8.stringLossy path))
  | .ok _ =>
    let script ← ExceptT.lift (onMachine fun m => m.newString path)
    let _ : Value ← attempt r (.load script wrap)

/-- A root that keeps an object alive. -/
def newRoot : Eval σ Nat :=
  modifyGet fun w =>
    (w.nextRoot,
      { w with
        nextRoot := w.nextRoot + 1
        machine := { w.machine with roots := w.nextRoot :: w.machine.roots } })

/-- A new root for the host to hold. -/
def pin : Checked σ Nat := do
  ensureSetup
  let root ← ExceptT.lift newRoot
  modify fun w => { w with boxes := root :: w.boxes }
  return root

/-- Give up a root that the host holds.  Once the interpreter is down there is nobody to give it up
to. -/
def unpin (root : Nat) : Eval σ Unit := do
  let w ← get
  if root ∈ w.boxes then
    modify fun w => { w with boxes := w.boxes.erase root }
    if w.state = .up then changeMachine fun m => { m with roots := m.roots.erase root }

/-- A new proc that runs a body of the host's, kept alive as long as the interpreter is up. -/
def newProc (body : Closure σ) : Checked σ Value := do
  ensureSetup
  let code := (← get).procs.size
  let proc ← ExceptT.lift (onMachine fun m => m.alloc CoreClass.procClass.value (.proc code))
  let root ← ExceptT.lift newRoot
  modify fun w => { w with procs := w.procs.push body, procRoots := root :: w.procRoots }
  return proc

end Vm

end EmbeddedRuby
