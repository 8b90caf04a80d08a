import EmbeddedRuby.Vm.Operation

/-!
# Running programs

A program of the host's is run request by request.  What it asks for may call methods, which may
call blocks and procs, which are programs again: `Reentry.ofFuel` ties this knot.  It is indexed by
the number of nested calls that are still allowed; when none is left, the run ends as exhausted.

A panic that comes out of a request is given to the program as the answer.
-/

namespace EmbeddedRuby

open Eval

variable {σ : Type}

/-- Run a program on one level of calls. -/
def Program.run (r : Reentry σ) : {role : Role} → Program σ role → Eval σ role.Result
  | _, .done result => return result
  | _, .panic message => crash message
  | _, .recall next => do Program.run r (next (← get).memory)
  | _, .remember memory next => do
    modify fun w => { w with memory }
    Program.run r next
  | _, .ask operation next => do Program.run r (next (← catchPanic (operation.answer r)))
  | _, .probe request next => do Program.run r (next (← catchPanic (request.answer r)))
  | _, .callWithBlock receiver method args body next => do
    Program.run r (next (← catchPanic (Vm.settled r (Vm.callWithBlock r receiver method args body))))
  | _, .newProc body next => do Program.run r (next (← catchPanic (Vm.settled r (Vm.newProc body))))
  | _, .register kind callback next => do
    Program.run r (next (← catchPanic (Vm.settled r (Vm.register kind (.custom callback)))))

/-- The way to call methods and to run programs, `fuel` calls deep. -/
def Reentry.ofFuel : Nat → Reentry σ
  | 0 => ⟨fun _ => exhausted, fun _ => exhausted, 0⟩
  | fuel + 1 =>
    ⟨fun call => dispatch (ofFuel fuel) call, fun program => program.run (ofFuel fuel), fuel⟩

/-- How deep calls may be nested, and how often a loop may go round. -/
def callDepth : Nat := 1000000000

/-- What a program of the host's gives, and the world after it. -/
def Program.result {role : Role} (program : Program σ role) : Eval σ role.Result :=
  Program.run (Reentry.ofFuel callDepth) program

end EmbeddedRuby
