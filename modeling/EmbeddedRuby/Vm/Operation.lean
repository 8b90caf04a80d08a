import EmbeddedRuby.Vm.Scalar

/-!
# Carrying out what programs ask for

`Operation.answer` carries out what can be asked for in the regular way, `Probe.answer` what can be
done to the runtime underneath.  A probe passes all checks by: it brings nothing up, records no
error, and leaves a pending exception where it is.
-/

namespace EmbeddedRuby

open Eval

variable {σ : Type} (r : Reentry σ)

/-- Carry out an operation. -/
def Operation.answer (operation : Operation) : Eval σ operation.Reply :=
  match operation with
  | .setup info => Vm.settled r (Vm.setup info)
  | .cleanUp => Vm.cleanUp
  | .state => do return (← get).state
  | .errors => do return (← get).history.errors
  | .mostRecentError => do return (← get).history.mostRecent?
  | .clearErrors => modify fun w => { w with history := w.history.clear }
  | .raise error => Vm.record error
  | .version => Vm.settled r (do Vm.ensureSetup; return Vm.version)
  | .description => Vm.settled r (do Vm.ensureSetup; return Vm.description)
  | .objectClass => Vm.settled r Vm.objectClass
  | .internedName name => Vm.settled r (Vm.internedName r name)
  | .load path wrap => Vm.settled r (Vm.load r path wrap)
  | .constant path => Vm.settled r (Vm.constant r path)
  | .constantIn module name => Vm.settled r (Vm.constantIn r module name)
  | .constantAt module name => Vm.settled r (Vm.constantAt r module name)
  | .classVar cls name => Vm.settled r (Vm.classVar r cls name)
  | .call receiver method args => Vm.settled r (Vm.call r receiver method args)
  | .callWithKeywords receiver method args keywords =>
    Vm.settled r (Vm.callWithKeywords r receiver method args keywords)
  | .callWithProc receiver method args proc => Vm.settled r (Vm.callWithProc r receiver method args proc)
  | .callProc proc args block => Vm.settled r (Vm.callProc r proc args block)
  | .newException cls message => Vm.settled r (Vm.newException r cls message)
  | .inspect value => Vm.settled r (Vm.inspect r value)
  | .toText value => Vm.settled r (Vm.toText r value)
  | .toUnsigned value => Vm.settled r (Vm.toUnsigned r value)
  | .toSigned value => Vm.settled r (Vm.toSigned r value)
  | .toDouble value => Vm.settled r (Vm.toDouble r value)
  | .readInt type value => do return (← Vm.settled r (Vm.readInt r type value)).toOption
  | .readDouble value => do return (← Vm.settled r (Vm.toDouble r value)).toOption
  | .readSingle value => do return (← Vm.settled r (Vm.readSingle r value)).toOption
  | .readBool value => do return (← Vm.settled r (Vm.readBool r value)).toOption
  | .readText value => do return (← Vm.settled r (Vm.toText r value)).toOption
  | .writeInt _ n => Vm.settled r (Vm.write (.int n))
  | .writeDouble number => Vm.settled r (Vm.write (.float number))
  | .writeSingle number => Vm.settled r (Vm.write (.float number.widen))
  | .writeBool b => Vm.settled r (Vm.writeBool b)
  | .writeText text => Vm.settled r (Vm.write (.string (Utf8.encodeString text)))
  | .pin _ => Vm.settled r Vm.pin
  | .unpin root => Vm.unpin root

/-- The counts of what was asked for. -/
def World.counts (w : World σ) : Counts where
  setup := w.machine.setupCalls
  cleanup := w.machine.cleanupCalls
  intern := w.machine.internCalls
  pinned := w.machine.roots.length
  history := w.history.errors.length

/-- Do something to the runtime underneath. -/
def Probe.answer (probe : Probe) : Eval σ probe.Reply :=
  match probe with
  | .make datum => onMachine fun m => m.make datum
  | .typeOf value => do return (← machine).heap.typeOf value
  | .pending => Eval.pending
  | .setPending value => Eval.setPending value
  | .attempt task => do return (← protect (perform r task)).mapError Jump.tag
  | .counts => do return (← get).counts
  | .takePrinted => onMachine fun m => (m.output, { m with printed := [] })
  | .options argv => onMachine fun m => m.options argv
  | .define cls name body => changeMachine fun m => m.define cls name (.routine body)
  | .internedName name => intern name

end EmbeddedRuby
