import EmbeddedRuby.Machine.World

/-!
# Calling back

Methods call methods, and blocks of the host's call the interpreter again.  What runs is therefore
written over a `Reentry`, which says how to call a method and how to run a program of the host's;
`EmbeddedRuby.Vm.Run` ties the knot.  `rounds` bounds how often a loop of the interpreter's own
goes round.

Here are the calls that everything else is made of: by name (`sendNamed`), for a text
(`inspectText`, `displayText`), of a block or a proc (`yieldBlock`, `callProc`), and of the host
(`enterCallback`).

A panic of the host's cannot pass through the interpreter.  `enterCallback` parks it and raises an
exception in its place; whoever takes up the exception on the host's side takes up the panic too.
-/

namespace EmbeddedRuby

/-- The block of a call. -/
inductive Block (σ : Type) where
  | none
  /-- Code of the host's, if there is any; a break out of it ends the iteration `target`. -/
  | host (body : Option (Closure σ)) (target : Nat)
  | proc (proc : Value) (target : Nat)

/-- Is there a block? -/
def Block.isGiven {σ : Type} : Block σ → Bool
  | .none => false
  | .host .. | .proc .. => true

/-- The call of a method. -/
structure Call (σ : Type) where
  receiver : Value
  method : SymbolId
  args : List Value
  /-- The last argument holds keywords. -/
  kwSplat : Bool := false
  block : Block σ := .none

/-- An argument, nil if there are not so many. -/
def Call.arg {σ : Type} (call : Call σ) (index : Nat) : Value :=
  (call.args[index]?).getD Value.nil

/-- How to call a method and how to run a program of the host's. -/
structure Reentry (σ : Type) where
  send : Call σ → Eval σ Value
  run : {role : Role} → Program σ role → Eval σ role.Result
  rounds : Nat

/-- As many arguments as this cannot be counted. -/
def argumentLimit : Nat := 0x80000000

namespace Eval

variable {σ : Type}

/-- Run `action` as a block out of which a break goes to `target`. -/
def asBlock (target : Option Nat) (args : List Value) (action : Eval σ Value) : Eval σ Value := do
  let depth := (← machine).yields.length
  changeMachine fun m => { m with yields := target :: m.yields }
  if argumentLimit ≤ args.length then raise .tooManyArguments
  else
    let result ← action
    changeMachine fun m => { m with yields := truncate depth m.yields }
    return result

/-- The bytes of a string object. -/
def bytesOf (v : Value) : Eval σ (List UInt8) := do
  let m ← machine
  match m.heap.bytes? v with
  | some bytes => return bytes
  | none => raise (.stringExpected (m.className v))

/-- Store a value in a hash. -/
def storeInHash (hash key value : Value) : Eval σ Unit := do
  let m ← machine
  if m.heap.typeOf hash = .hash then changeMachine fun m => m.storeInHash hash key value
  else raise (.hashExpected (m.className hash))

/-- Does a constant name start as it should? -/
def startsWithCapital (name : String) : Bool :=
  name.toList.head?.any Text.isCapital

/-- A class variable of a class. -/
def classVar (cls : Value) (id : SymbolId) : Eval σ Value := do
  let m ← machine
  match m.heap.classVar? cls id with
  | some value => return value
  | none =>
    let name := m.symbols.name id
    if (Text.dropFront? ['@', '@'] name.toList).isSome then
      raise (.uninitializedClassVar name (m.moduleName cls))
    else raise (.notClassVarName name)

/-- Does an object have a method of this name? -/
def respondsTo (receiver : Value) (name : String) : Eval σ Bool := do
  let method ← intern name
  return (← machine).respondsTo receiver method

end Eval

namespace Reentry

open Eval

variable {σ : Type} (r : Reentry σ)

/-- Call a method by name, without a block. -/
def sendNamed (receiver : Value) (name : String) (args : List Value) : Eval σ Value := do
  let method ← intern name
  r.send { receiver, method, args }

/-- The text that shows an object. -/
def inspectText (v : Value) : Eval σ String := do
  textOf (← r.sendNamed v "inspect" [])

/-- The text of an object, strings as they are. -/
def displayText (v : Value) : Eval σ String := do
  if (← machine).heap.typeOf v = .string then textOf v
  else textOf (← r.sendNamed v "to_s" [])

/-- What the callback gives for a body and its arguments, in raw form.  Where closures are run and
there is none, the host calls code at an address where there is none any more: the procs are gone
once the interpreter was taken down. -/
def callbackResult (callback : Callback σ) (body : Option (Closure σ)) (args : List Value)
    (blockArg : Value) : Eval σ RawReturn :=
  match callback, body with
  | .closures, some body => do
    let outcome ← r.run (body args)
    return outcome.toRaw
  | .closures, none => exhausted
  | .custom run, body => r.run (run ⟨body.isSome, args, blockArg⟩)

/-- Call the host, and do what it wants. -/
def enterCallback (kind : CallbackKind) (body : Option (Closure σ)) (args : List Value)
    (blockArg : Value) : Eval σ Value := do
  match (← get).callback kind with
  | none => raise .noCallback
  | some callback =>
    match ← catchPanic (r.callbackResult callback body args blockArg) with
    | .error p =>
      modify fun w => w.park p
      raise .callbackPanicked
    | .ok raw =>
      match BlockReturn.ofRaw raw with
      | .ok (.value v) => return v
      | .ok .breakOff => breakOut Value.nil
      | .ok (.breakValue v) => breakOut v
      | .ok (.raise exception) => raiseObject exception
      | .error tag => raise (.corruptReturn tag)

/-- Call a proc; a break out of it goes to `target`. -/
def callProc (proc : Value) (args : List Value) (target : Option Nat) (blockArg : Value) :
    Eval σ Value := do
  match (← machine).heap.body? proc with
  | some (.proc code) =>
    let body := (← get).procs[code]?
    asBlock target args (r.enterCallback .proc body args blockArg)
  | _ => raise (.procExpected ((← machine).describe proc))

/-- Call the block of a call. -/
def yieldBlock (call : Call σ) (args : List Value) : Eval σ Value :=
  match call.block with
  | .none => raise .noBlock
  | .host body target => asBlock (some target) args (r.enterCallback .block body args Value.nil)
  | .proc proc target => r.callProc proc args (some target) Value.nil

/-- An object as a string object. -/
def stringOf (v : Value) : Eval σ Value := do
  if (← machine).heap.typeOf v = .string then return v
  let converted ← r.sendNamed v "to_s" []
  let m ← machine
  if m.heap.typeOf converted = .string then return converted
  raise (.noStringForm (m.className v))

/-- The string object that shows an object. -/
def inspectString (v : Value) : Eval σ Value := do
  r.stringOf (← r.sendNamed v "inspect" [])

/-- The name that a symbol or a string is. -/
def nameOf (v : Value) : Eval σ String := do
  let m ← machine
  match v.symbol? with
  | some id => return m.symbols.name id
  | none =>
    match m.heap.bytes? v with
    | some bytes => return Utf8.stringLossy bytes
    | none => raise (.notAName (← r.inspectText v))

/-- The constant of a module; with `only` it has to be the module's own. -/
def constant (module : Value) (id : SymbolId) (only : Bool) : Eval σ Value := do
  let m ← machine
  if (m.heap.module? module).isNone then raise (.notAModule (← r.inspectText module))
  else
    let name := m.symbols.name id
    if startsWithCapital name then
      match if only then m.heap.constantAt? module id else m.heap.constant? module id with
      | some value => return value
      | none => raise (.uninitializedConstant (m.qualifiedName module name))
    else raise (.wrongConstantName name)

/-- The constant that a path of names leads to, from a module. -/
def constantPath (module : Value) : List String → Eval σ Value
  | [] => return module
  | name :: rest => do
    let id ← intern name
    constantPath (← r.constant module id false) rest

end Reentry

end EmbeddedRuby
