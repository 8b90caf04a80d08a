import EmbeddedRuby.Proofs.Careful.Scripts

/-!
# Careful tasks and methods of the host's

A task is careful if the words that it is given are known, and a method of the host's is careful if it
makes up no handles.  So it is careful to find the method of a call and to run it
(`careful_dispatch`).
-/

namespace EmbeddedRuby

open Eval

variable {σ : Type} [Handled σ] {r : Reentry σ} {known : Nat}

/-- A method is called with a body that is honest about what it uses. -/
theorem careful_callWithClosure (hr : r.Sound) {receiver : Value} (hreceiver : Within known receiver)
    (method : SymbolId) {args : List Value} (hargs : Within known args) {body : Closure σ}
    (hbody : body.Honest known) : Careful known (callWithClosure r receiver method args body) := by
  refine .iteration hr fun target => ⟨hreceiver, hargs, ?_⟩
  rintro code ⟨⟩
  exact hbody

/-- Each task on what is known is careful, one case for each. -/
theorem careful_perform (hr : r.Sound) {task : Task} (htask : Within known task) :
    Careful known (perform r task) := by
  have hvalues : ∀ v ∈ task.values, Within known v := htask
  cases task with
  | load path wrap => exact (Loader.careful_loadObject hr path wrap).bind fun _ => .pure (within_nil _)
  | intern name =>
      refine Careful.bind ?_ fun _ => .intern name
      exact .changeOther (fun _ => rfl) (fun _ => rfl) fun _ => rfl
  | classVar cls id => exact .classVar cls id
  | callWithBareBlock receiver method args =>
      refine .iteration hr fun target => ⟨hvalues _ (.head _), fun v hv => hvalues v (.tail _ hv), ?_⟩
      rintro code ⟨⟩
  | callWithProc receiver method args proc =>
      have hargs : Within known args := fun v hv => hvalues v (.tail _ (.tail _ hv))
      have hreceiver : Within known receiver := hvalues _ (.head _)
      refine .ite (hr.send ⟨hreceiver, hargs, trivial⟩) (.iteration hr fun target => ?_)
      exact ⟨hreceiver, hargs, hvalues _ (.tail _ (.head _))⟩
  | callProc proc args blockArg =>
      exact .callProc hr proc (fun v hv => hvalues v (.tail _ (.tail _ hv))) none
        (hvalues _ (.tail _ (.head _)))
  | keywordHash pairs =>
      have hdatum : Within known
          (Datum.hash (pairs.map fun pair => (Value.ofSymbol pair.1, pair.2))) := by
        intro keyed hkeyed
        obtain ⟨pair, hpair, rfl⟩ := List.mem_map.mp hkeyed
        exact ⟨within_ofSymbol _ _, hvalues _ (List.mem_map_of_mem hpair)⟩
      exact .make hdatum
  | bytes value => exact .bytesOf value
  | storeInHash hash key value =>
      exact .storeInHash hash (hvalues _ (.tail _ (.head _))) (hvalues _ (.tail _ (.tail _ (.head _))))
  | doubleOf value => exact .toDouble value
  | floatNumber value | isNegative value => exact .look fun _ => .pure trivial
  | raiseTypeError message | raiseRuntimeError message => exact .raise _
  | panic message => exact .crash message
  | call receiver method args kwSplat =>
      exact hr.send ⟨hvalues _ (.head _), fun v hv => hvalues v (.tail _ hv), trivial⟩
  | constant module id => exact .constant hr (hvalues _ (.head _)) id false
  | constantAt module id => exact .constant hr (hvalues _ (.head _)) id true
  | toUnsigned value => exact .toUnsigned hr (hvalues _ (.head _))
  | toSigned value =>
      exact (Careful.toInteger hr (hvalues _ (.head _))).keep fun _ _ _ hnumber => .toLong hr hnumber
  | toDouble value =>
      exact (Careful.toFloat hr (hvalues _ (.head _))).bind fun number => .toDouble number
  | inspectBytes value =>
      exact (Careful.inspectString hr (hvalues _ (.head _))).bind fun shown => .bytesOf shown
  | stringBytes value =>
      exact (Careful.stringOf hr (hvalues _ (.head _))).bind fun shown => .bytesOf shown
  | integer value => exact .toInteger hr (hvalues _ (.head _))
  | float value => exact .toFloat hr (hvalues _ (.head _))
  | long value => exact .toLong hr (hvalues _ (.head _))
  | unsignedLong value => exact .toUnsignedLong hr (hvalues _ (.head _))
  | inspect value => exact .inspectString hr (hvalues _ (.head _))
  | string value => exact .stringOf hr (hvalues _ (.head _))
  | raise exception => exact .raiseObject (hvalues _ (.head _))
  | breakOut value => exact .breakOut (hvalues _ (.head _))

/-- A method of the host's is careful if it is honest about what it uses. -/
theorem Routine.careful_run (hr : r.Sound) {call : Call σ} (hcall : call.Honest known)
    {routine : Routine} (hroutine : routine.Honest known) : Careful known (routine.run r call) := by
  induction routine generalizing known with
  | done value => exact .pure hroutine
  | panic message => exact .crash message
  | perform task next ih =>
      exact (careful_perform hr hroutine.1).keep fun later hle result hresult =>
        ih result (hcall.mono hle) (hroutine.2 later hle result hresult)
  | send receiver method args next ih =>
      exact (Careful.sendNamed hr hroutine.1.1 method hroutine.1.2).keep fun later hle value hvalue =>
        ih value (hcall.mono hle) (hroutine.2 later hle value hvalue)
  | yield args next ih =>
      exact (Careful.yieldBlock hr hcall.block hroutine.1).keep fun later hle value hvalue =>
        ih value (hcall.mono hle) (hroutine.2 later hle value hvalue)
  | make datum next ih =>
      exact (Careful.make hroutine.1).keep fun later hle value hvalue =>
        ih value (hcall.mono hle) (hroutine.2 later hle value hvalue)

/-- A call is careful whichever method is found for it. -/
theorem careful_dispatch (hr : r.Sound) {call : Call σ} (hcall : call.Honest known) :
    Careful known (dispatch r call) := by
  refine Careful.inside fun m hm hknown => ?_
  have hnow := hcall.mono hknown
  split
  · exact Builtin.careful_run hr _ hnow
  · rename_i body hfound
    obtain ⟨cls, -, hmethod⟩ := List.exists_of_findSome?_eq_some hfound
    have hinvocation : Within m.heap.slots.size call.toInvocation := ⟨hnow.receiver, hnow.args⟩
    exact Routine.careful_run hr hnow (hm.routines hmethod _ (Nat.le_refl _) _ hinvocation)
  · exact .raise _

end EmbeddedRuby
