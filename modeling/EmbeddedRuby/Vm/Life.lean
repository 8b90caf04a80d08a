import EmbeddedRuby.Vm.Surfacing

/-!
# The life of the interpreter

The interpreter is brought up once, by `setup` or by the first operation that needs it
(`ensureSetup`), and taken down once, by `cleanUp`.  A failure to bring it up is final, and is
reported again to whoever asks; so is the end of its life.

`register` replaces a callback.  The places of the callbacks are filled once, and bringing the
interpreter up fills those that are still empty.
-/

namespace EmbeddedRuby

/-- The world in which the callbacks that nobody replaced run the bodies they are given. -/
def World.fillCallbacks {σ : Type} (w : World σ) : World σ :=
  { w with
    blockCallback := some (w.blockCallback.getD .closures)
    procCallback := some (w.procCallback.getD .closures) }

/-- The world with another callback. -/
def World.setCallback {σ : Type} (w : World σ) (kind : CallbackKind) (callback : Callback σ) :
    World σ :=
  match kind with
  | .block => { w with blockCallback := some callback }
  | .proc => { w with procCallback := some callback }

namespace Vm

open Eval

variable {σ : Type}

/-- Bring the interpreter up; errors do not go into the history. -/
def start (info : BootInfo) : ExceptT Error (Eval σ) Unit := do
  if (← ExceptT.lift machine).initialized then
    ExceptT.lift (crash "the embedded Ruby was initialized outside of this VM")
  else
    let code ← ExceptT.lift (onMachine Machine.setUp)
    if code ≠ 0 then throw (.setup s!"ruby_setup() failed with code {code}")
    else
      modify World.fillCallbacks
      let arguments ← info.arguments
      if ← ExceptT.lift (onMachine fun m => m.options arguments) then return
      else throw (.setup "ruby_options() did not produce a runnable program, status 1")

/-- Bring the interpreter up if that was not tried yet.  Is it this call that did it? -/
def setup (info : BootInfo) : Checked σ Bool := do
  match (← get).state with
  | .up => return false
  | .failed error => fail error
  | .cleanedUp => fail (.setup "Ruby VM has already been cleaned up")
  | .unknown =>
    match ← ExceptT.lift (start info).run with
    | .ok () =>
      modify fun w => { w with state := .up }
      return true
    | .error error =>
      modify fun w => { w with state := .failed error }
      fail error

/-- Go on only with an interpreter that is up. -/
def ensureSetup : Checked σ Unit := do
  let _ ← setup {}

/-- Take the interpreter down if it is up, and give the code that it reports. -/
def cleanUp : Eval σ Int := do
  match (← get).state with
  | .up =>
    let code ← onMachine fun m => m.cleanUp 0
    modify fun w => { w with state := .cleanedUp, ids := {}, procs := #[], procRoots := [] }
    return code
  | _ => return 0

/-- A callback as messages name it. -/
def callbackText : CallbackKind → String
  | .block => "block"
  | .proc => "proc"

/-- Fill the place of a callback, which has to be empty. -/
def register (kind : CallbackKind) (callback : Callback σ) : Checked σ Unit := do
  match (← get).callback kind with
  | some _ => fail (.badParameter (callbackText kind ++ " callback is already registered"))
  | none => modify fun w => w.setCallback kind callback

/-- The version of the interpreter. -/
def version : String := "3.4.1"

/-- The interpreter in a line. -/
def description : String := s!"ruby {version} (rubygate sim) [arch-os]"

end Vm

end EmbeddedRuby
