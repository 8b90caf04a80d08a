import EmbeddedRuby.Proofs.Composed.Methods

/-!
# Tasks, methods of the host's, and the parts of statements

An ordinary task is composed of what the interpreter does.  A method of the host's is, but for the
tasks that it asks for; and so are the parts that the statements of a script are made of, where these
define no module or constant.
-/

namespace EmbeddedRuby

open Eval

variable {σ : Type} {r : Reentry σ} {block : Block σ} {allowed : Task → Prop}

/-- The task neither runs a script nor counts that it was asked for a name. -/
def Task.IsOrdinary : Task → Prop
  | .load .. | .intern _ => False
  | _ => True

/-- An ordinary task does no more than the functions that it stands for. -/
theorem composed_perform {task : Task} (htask : task.IsOrdinary) :
    Composed r block allowed (perform r task) := by
  cases task with
  | load path wrap | intern name => exact htask.elim
  | constant module id => exact .constant module id false
  | constantAt module id => exact .constant module id true
  | classVar cls id => exact .classVar cls id
  | call receiver method args kwSplat => exact .send rfl
  | callWithProc receiver method args proc => exact .ite (.send rfl) (.iteration fun _ => rfl)
  | callWithBareBlock receiver method args => exact .iteration fun _ => rfl
  | callProc proc args blockArg => exact .callProc proc args blockArg
  | keywordHash pairs => exact .make _
  | toUnsigned value => exact .toUnsigned value
  | toSigned value => exact (Composed.toInteger value).bind .toLong
  | toDouble value => exact (Composed.toFloat value).bind .toDouble
  | inspectBytes value => exact (Composed.inspectString value).bind .bytesOf
  | stringBytes value => exact (Composed.stringOf value).bind .bytesOf
  | integer value => exact .toInteger value
  | float value => exact .toFloat value
  | long value => exact .toLong value
  | unsignedLong value => exact .toUnsignedLong value
  | doubleOf value => exact .toDouble value
  | inspect value => exact .inspectString value
  | string value => exact .stringOf value
  | bytes value => exact .bytesOf value
  | storeInHash hash key value => exact .storeInHash hash key value
  | floatNumber value | isNegative value => exact .look _
  | raiseTypeError message | raiseRuntimeError message => exact .raise _
  | raise exception => exact .raiseObject exception
  | breakOut value => exact .breakOut value
  | panic message => exact .crash message

/-! ### Methods of the host's -/

/-- All tasks that the method asks for are allowed. -/
def Routine.Within (allowed : Task → Prop) : Routine → Prop
  | .done _ | .panic _ => True
  | .perform task next => allowed task ∧ ∀ result, (next result).Within allowed
  | .send _ _ _ next | .yield _ next | .make _ next => ∀ value, (next value).Within allowed

/-- Where all tasks are allowed, the method asks for none but these. -/
theorem Routine.within_any (routine : Routine) : routine.Within fun _ => True := by
  induction routine with
  | done | panic => trivial
  | perform task next ih => exact ⟨trivial, ih⟩
  | send receiver method args next ih | yield args next ih | make datum next ih => exact ih

/-- A method of the host's is composed of calls, blocks and the tasks that it asks for. -/
theorem Routine.composed_run {call : Call σ} {routine : Routine}
    (hroutine : routine.Within allowed) :
    Composed r call.block allowed (routine.run r call) := by
  induction routine with
  | done value => exact .pure value
  | panic message => exact .crash message
  | perform task next ih =>
      exact (Composed.perform hroutine.1).bind fun result => ih result (hroutine.2 result)
  | send receiver method args next ih =>
      exact (Composed.sendNamed receiver method args).bind fun value => ih value (hroutine value)
  | yield args next ih =>
      exact (Composed.yieldBlock rfl args).bind fun value => ih value (hroutine value)
  | make datum next ih => exact (Composed.make datum).bind fun value => ih value (hroutine value)

/-! ### The parts of statements -/

namespace Loader

/-- A path of constants is looked up from the bodies that are open, the innermost first. -/
theorem composed_resolve (b : Bodies) (path : List (List Char)) :
    Composed r block allowed (resolve r b path) := by
  unfold resolve
  split
  · exact .pure _
  · rename_i first rest
    have hrest : ∀ start,
        Composed r block allowed (r.constantPath start (rest.map String.ofList)) := fun start =>
      .constantPath start _
    refine .ite ((Composed.pure _).bind hrest) ?_
    refine (Composed.intern _).bind fun id => Composed.machine.bind fun m => ?_
    dsimp only
    split
    · exact (Composed.pure _).bind hrest
    · exact (Composed.constant _ id false).bind hrest

mutual

/-- A literal is evaluated by its parts. -/
theorem composed_evaluate (b : Bodies) (literal : Literal) :
    Composed r block allowed (evaluate r b literal) := by
  cases literal with
  | nil | true | false =>
      unfold evaluate
      exact .pure _
  | int n =>
      unfold evaluate
      exact .newInteger n
  | float x =>
      unfold evaluate
      exact .newFloat x
  | string text =>
      unfold evaluate
      exact .newText _
  | symbol name =>
      unfold evaluate
      exact (Composed.intern _).bind fun _ => .pure _
  | array items =>
      unfold evaluate
      exact (composed_evaluateAll b items).bind fun values => .newArray values
  | constant path =>
      unfold evaluate
      exact composed_resolve b path

/-- Arguments are evaluated in order, by induction over them. -/
theorem composed_evaluateAll (b : Bodies) (literals : List Literal) :
    Composed r block allowed (evaluateAll r b literals) := by
  cases literals with
  | nil =>
      unfold evaluateAll
      exact .pure _
  | cons item rest =>
      unfold evaluateAll
      exact (composed_evaluate b item).bind fun value =>
        (composed_evaluateAll b rest).bind fun values => .pure _

end

/-- Opening a module again checks its kind and its superclass, and changes nothing. -/
theorem composed_reopen (name : String) (isClass : Bool) (existing : Value)
    (superclass : Option Value) :
    Composed r block allowed (reopen name isClass existing superclass) := by
  unfold reopen
  refine Composed.machine.bind fun m => ?_
  split
  · exact .ite (.raise _) (.ite (.raise _) (.pure _))
  · exact .raise _

/-- A `raise` evaluates its class and its message before the exception is made. -/
theorem composed_raiseStatement {α : Type} (b : Bodies) (cls : Option (List (List Char)))
    (message : Option Literal) :
    Composed r block allowed (raiseStatement r b cls message : Eval σ α) := by
  unfold raiseStatement
  dsimp only
  split
  case' h_1 message => refine (composed_evaluate b message).bind fun _ => ?_
  all_goals
    refine (Composed.pure _).bind fun message => ?_
    split
    · exact (composed_resolve b _).bind fun cls =>
        (Composed.sendNamed cls "new" _).bind fun exception => .raiseObject exception
    · refine Composed.machine.bind fun m => .ite ?_ (.raise _)
      exact (Composed.sendNamed _ "new" _).bind fun exception => .raiseObject exception
    · exact .raise _

end Loader

end EmbeddedRuby
