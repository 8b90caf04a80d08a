import EmbeddedRuby.Proofs.Iterations
import EmbeddedRuby.Proofs.LifeCycle
import EmbeddedRuby.Proofs.Objects

/-!
# Code of the host's that is handed over

The host can hand over a closure as a block (`callWithBlock`) or as a proc (`newProc`).  What runs
when the interpreter yields to the block, or calls the proc, is what stands in the place of the
callback for blocks, or for procs; and that is the closure itself only if nobody has put a callback
of the host's there.

The two places are filled once, at the latest when the interpreter is brought up
(`World.Change.callback_kept`, `World.Change.equipped`).  So what stands there when a closure is
handed over stands there whenever it is reached.  A closure that is handed over as a block is
refused unless the place is the one that runs closures.  A closure that is handed over as a proc is
taken in any case: the proc leads to it at every later moment (`World.Reaches.callProc_eq`), but
where a callback of the host's stands in the place, that one runs instead.

The main statement is `World.closures_reached`.
-/

namespace EmbeddedRuby

open Eval

variable {σ : Type} {P : Probe → Prop}

/-! ### Entering a callback -/

/-- What the interpreter does after a callback has come to an end. -/
def Eval.obey : Answer RawReturn → Eval σ Value
  | .error p => do
    modify fun w => w.park p
    raise .callbackPanicked
  | .ok raw =>
    match BlockReturn.ofRaw raw with
    | .ok (.value v) => return v
    | .ok .breakOff => breakOut Value.nil
    | .ok (.breakValue v) => breakOut v
    | .ok (.raise exception) => raiseObject exception
    | .error tag => raise (.corruptReturn tag)

namespace Reentry

variable {r : Reentry σ}

/-- Run a closure on arguments, and do what it has come to. -/
def enterClosure (r : Reentry σ) (body : Closure σ) (args : List Value) : Eval σ Value := do
  obey (← catchPanic do return (← r.runBody body args).toRaw)

/-- Run a callback that is no closure, and do what it has come to. -/
def enterCustom (r : Reentry σ) (run : CallbackInput → Program σ .callback)
    (input : CallbackInput) : Eval σ Value := do
  obey (← catchPanic (r.run (run input)))

/-- What runs for a closure, where this stands in the place of the callback. -/
def enterInPlace (r : Reentry σ) (body : Closure σ) (args : List Value) (blockArg : Value) :
    Callback σ → Eval σ Value
  | .closures => r.enterClosure body args
  | .custom run => r.enterCustom run ⟨true, args, blockArg⟩

/-- What stands in the place of the callback runs. -/
theorem enterCallback_of_callback {kind : CallbackKind} {callback : Callback σ} {w : World σ}
    (hcallback : w.callback kind = some callback) (body : Closure σ) (args : List Value)
    (blockArg : Value) :
    r.enterCallback kind (some body) args blockArg w = r.enterInPlace body args blockArg callback w := by
  unfold enterCallback
  rw [get_bind_apply, hcallback]
  cases callback with
  | closures =>
      unfold enterInPlace enterClosure
      simp only
      rw [bind_apply, bind_apply]
      congr 1
  | custom run => rfl

end Reentry

/-- What a block does is what its action does inside it. -/
theorem Eval.asBlock_congr {target : Option Nat} {args : List Value} {x y : Eval σ Value}
    {w : World σ} (h : x (w.enterBlock target) = y (w.enterBlock target)) :
    asBlock target args x w = asBlock target args y w := by
  by_cases hargs : args.length < argumentLimit
  · rw [asBlock_apply target hargs, asBlock_apply target hargs, h]
  · unfold asBlock
    rw [machine_bind_apply, machine_bind_apply, changeMachine_bind_apply, changeMachine_bind_apply,
      if_pos (Nat.le_of_not_lt hargs), if_pos (Nat.le_of_not_lt hargs)]

/-- Entering a block is a run. -/
theorem World.reaches_enterBlock (w : World σ) (target : Option Nat) :
    w.Reaches P (w.enterBlock target) :=
  (World.Change.restack w _ _).reaches

/-! ### The places of the callbacks -/

namespace World

variable {w w' v v₁ u : World σ}

/-- A callback that is there stays. -/
theorem Change.callback_kept (h : w.Change P w') {kind : CallbackKind} {callback : Callback σ}
    (hw : w.callback kind = some callback) : w'.callback kind = some callback := by
  cases h.host with
  | same h => exact (h.callback kind).trans hw
  | learn _ _ h | addProc _ h | cleanUp _ h =>
      subst h
      cases kind <;> exact hw
  | setup hunknown hstart h => exact h ▸ (Step.setup hunknown hstart).callback_kept hw
  | @register place run hempty hrun h =>
      subst h
      cases place <;> cases kind <;>
        first | exact hw | exact absurd (hempty.symm.trans hw) (by simp)

/-- A callback that is in its place is there at every later moment. -/
theorem Reaches.callback_kept (h : w.Reaches P w') {kind : CallbackKind} {callback : Callback σ}
    (hw : w.callback kind = some callback) : w'.callback kind = some callback :=
  h.kept (fun hchange => hchange.callback_kept) hw

/-- While the interpreter is up something stands in the place of each callback. -/
def Equipped (w : World σ) : Prop :=
  w.state = .up → ∀ kind, ∃ callback, w.callback kind = some callback

/-- Bringing the interpreter up fills the places that are empty. -/
theorem equipped_of_start {info : BootInfo} {result : Except Error Unit} {w₁ : World σ}
    (hstart : (Vm.start info).run w = .ok result w₁) :
    Equipped { w₁ with state := stateAfter result } := by
  intro hup kind
  cases (Vm.start_cases hstart).2 with
  | refused | badArguments => cases hup
  | ran => cases kind <;> exact ⟨_, rfl⟩

/-- Where the interpreter was up before, what stood in the places stays. -/
theorem Change.equipped_of_up (h : w.Change P w') (hw : w.Equipped) (hup : w.state = .up) :
    w'.Equipped := by
  intro _ kind
  obtain ⟨callback, hcallback⟩ := hw hup kind
  exact ⟨callback, h.callback_kept hcallback⟩

/-- No change takes a callback from an interpreter that is up. -/
theorem Change.equipped (h : w.Change P w') (hw : w.Equipped) : w'.Equipped := by
  intro hup
  cases h.host with
  | setup hunknown hstart heq =>
      subst heq
      exact equipped_of_start hstart hup
  | cleanUp _ heq =>
      subst heq
      cases hup
  | same hsame => exact h.equipped_of_up hw (hsame.state.symm.trans hup) hup
  | learn _ _ heq | addProc _ heq =>
      subst heq
      exact h.equipped_of_up hw hup hup
  | @register kind run _ _ heq =>
      have hstate : w'.state = w.state := by
        subst heq
        cases kind <;> rfl
      exact h.equipped_of_up hw (hstate.symm.trans hup) hup

/-- An interpreter that nobody has touched is not up. -/
theorem Fresh.equipped (h : w.Fresh) : w.Equipped := by
  intro hup
  rw [h.state] at hup
  cases hup

/-- The places of the callbacks are filled at every moment of a run at which the interpreter is up.
-/
theorem Reaches.equipped (h : w.Reaches P w') (hw : w.Equipped) : w'.Equipped :=
  h.kept (fun hchange => hchange.equipped) hw

/-! ### The bodies of procs -/

/-- The closure that a proc was made of is kept until the interpreter is taken down. -/
def KeepsProc (w : World σ) (code : Nat) (body : Closure σ) : Prop :=
  w.state ≠ .cleanedUp → w.procs[code]? = some body

/-- Each change keeps the closure of a proc, or takes the interpreter down. -/
theorem Change.keepsProc (h : w.Change P w') {code : Nat} {body : Closure σ}
    (hw : w.KeepsProc code body) : w'.KeepsProc code body := by
  intro hnot
  have hbefore : w.state ≠ .cleanedUp := by
    intro hdown
    rcases h.state_next with hsame | hnext
    · exact hnot (hsame.trans hdown)
    · rw [hdown] at hnext
      cases hnext
  have hproc := hw hbefore
  cases h.host with
  | same hsame => exact hsame.procs ▸ hproc
  | learn _ _ heq => exact heq ▸ hproc
  | @addProc other hother heq =>
      subst heq
      obtain ⟨hlt, -⟩ := Array.getElem?_eq_some_iff.mp hproc
      have hpush := Array.getElem?_push_lt (x := other) hlt
      exact hpush.trans ((Array.getElem?_eq_getElem hlt).symm.trans hproc)
  | @register kind run _ _ heq =>
      subst heq
      cases kind <;> exact hproc
  | setup hunknown hstart heq =>
      subst heq
      cases (Vm.start_cases hstart).2 <;> exact hproc
  | cleanUp _ heq =>
      subst heq
      exact absurd rfl hnot

/-- The closure of a proc is kept at every moment of a run before the interpreter is taken down. -/
theorem Reaches.keepsProc (h : w.Reaches P w') {code : Nat} {body : Closure σ}
    (hw : w.KeepsProc code body) : w'.KeepsProc code body :=
  h.kept (fun hchange => hchange.keepsProc) hw

/-- The proc that was made last. -/
def lastProc (w : World σ) : Value :=
  (w.machine.alloc CoreClass.procClass.value (.proc w.procs.size)).1

variable {r : Reentry σ}

/-- **Yielding to a block of the host's** runs what stood in the place of the callback when the
block was handed over. -/
theorem Reaches.yieldBlock_eq (h : w.Reaches P u) {callback : Callback σ}
    (hcallback : w.callback .block = some callback) {call : Call σ} {body : Closure σ}
    {target : Nat} (hblock : call.block = .host (some body) target) (items : List Value) :
    r.yieldBlock call items u =
      asBlock (some target) items (r.enterInPlace body items Value.nil callback) u := by
  unfold Reentry.yieldBlock
  rw [hblock]
  refine asBlock_congr (Reentry.enterCallback_of_callback ?_ body items Value.nil)
  exact Reaches.callback_kept (h.trans (u.reaches_enterBlock (some target))) hcallback

/-- A proc that was made of a closure runs, with the closure, what stands in the place of the
callback, at every moment at which the interpreter is up. -/
theorem Reaches.callProc_of_callback {body : Closure σ} (h : (w.addProc body).Reaches P u)
    (hroom : w.machine.heap.Addressable) {callback : Callback σ}
    (hcallback : u.callback .proc = some callback) (hup : u.state = .up) (args : List Value)
    (target : Option Nat) (blockArg : Value) :
    r.callProc w.lastProc args target blockArg u =
      asBlock target args (r.enterInPlace body args blockArg callback) u := by
  have hmade : (w.addProc body).machine.heap.body? w.lastProc = some (.proc w.procs.size) :=
    Heap.body?_alloc hroom _ _
  have hbody : u.machine.heap.body? w.lastProc = some (.proc w.procs.size) :=
    h.evolves.body?_proc hmade
  have hkept : (w.addProc body).KeepsProc w.procs.size body := fun _ => Array.getElem?_push_size
  have hproc : u.procs[w.procs.size]? = some body :=
    h.keepsProc hkept (by simp [hup])
  unfold Reentry.callProc
  rw [machine_bind_apply, hbody]
  simp only
  rw [get_bind_apply, hproc]
  have hentered : (u.enterBlock target).callback .proc = some callback := hcallback
  exact asBlock_congr (Reentry.enterCallback_of_callback hentered body args blockArg)

/-- **Calling a proc of the host's** runs, with the closure that the proc was made of, what stood in
the place of the callback when the proc was made, at every moment at which the interpreter is up. -/
theorem Reaches.callProc_eq {body : Closure σ} (h : (w.addProc body).Reaches P u)
    (hroom : w.machine.heap.Addressable) {callback : Callback σ}
    (hcallback : w.callback .proc = some callback) (hup : u.state = .up) (args : List Value)
    (target : Option Nat) (blockArg : Value) :
    r.callProc w.lastProc args target blockArg u =
      asBlock target args (r.enterInPlace body args blockArg callback) u := by
  have hadded : (w.addProc body).callback .proc = some callback := hcallback
  exact h.callProc_of_callback hroom (h.callback_kept hadded) hup args target blockArg

/-! ### Handing over -/

end World

namespace Vm

variable {α : Type} {r : Reentry σ} {v v₁ : World σ}

/-- A proc is made of a closure whatever stands in the place of its callback. -/
theorem newProc_run (hsetup : (ensureSetup : Checked σ Unit).run v = .ok (.ok ()) v₁)
    (body : Closure σ) : (newProc body).run v = .ok (.ok v₁.lastProc) (v₁.addProc body) := by
  unfold newProc
  rw [run_bind_apply, hsetup]
  rfl

/-- A call with a block brings the interpreter up, and goes on as if it had been up before. -/
theorem callWithBlock_run (hsetup : (ensureSetup : Checked σ Unit).run v = .ok (.ok ()) v₁)
    {method : String} (hmethod : isName .method method) (receiver : Value) (args : List Value)
    (body : Closure σ) :
    (callWithBlock r receiver method args body).run v =
      (callWithBlock r receiver method args body).run v₁ := by
  have hname : (checkedName r .method method).run v = (checkedName r .method method).run v₁ := by
    unfold checkedName checkName
    rw [if_pos hmethod, pure_bind]
    exact ensureSetup_bind_run hsetup _
  unfold callWithBlock
  rw [run_bind_apply, run_bind_apply, hname]

end Vm

namespace World

variable {w v v₁ u : World σ}

/-- **Which closures are reached.**  At every moment of every run from a world in which nobody has
touched the interpreter, what stands in the place of a callback stays there, and while the
interpreter is up something stands in both places.  Where an operation that needs the interpreter
gets to have it up:

* a closure is handed over as a block only if closures stand in the place; and then, whenever the
  interpreter yields to the block, the closure runs with exactly the items that were yielded.
  Otherwise the operation is refused, whatever the closure is;
* a closure is handed over as a proc in any case.  Whenever the proc is called, as long as the
  interpreter is up, what stands in the place runs: the closure with exactly the arguments, or a
  callback of the host's, which is told that there is a closure. -/
theorem closures_reached (fuel : Nat)
    (hfresh : w.Fresh)
    (hreached : w.Reaches AnyProbe v)
    (hsetup : (Vm.ensureSetup : Checked σ Unit).run v = .ok (.ok ()) v₁)
    (hroom : v₁.machine.heap.Addressable) :
    let r : Reentry σ := .ofFuel fuel
    let refusal := Error.badParameter Vm.customBlockReason
    (∀ kind callback, v.callback kind = some callback →
      ∀ u, v.Reaches AnyProbe u → u.callback kind = some callback) ∧
    (v.state = .up → ∀ kind, ∃ callback, v.callback kind = some callback) ∧
    (∀ (receiver : Value) (method : String) (args : List Value) (body : Closure σ),
      Vm.isName .method method → Vm.isName .symbol method → args.length < argumentLimit →
      let answer := Vm.settled r (Vm.callWithBlock r receiver method args body) v
      (v₁.callback .block = some .closures ∧
        answer = Vm.settled r (Vm.guarded (callWithClosure r receiver (v₁.idOf method) args body))
          (v₁.knowing method) ∧
        ∀ u, v₁.Reaches AnyProbe u → ∀ call target items, call.block = .host (some body) target →
          r.yieldBlock call items u = asBlock (some target) items (r.enterClosure body items) u) ∨
      ((∃ run, v₁.callback .block = some (.custom run)) ∧
        answer = .ok (.error refusal) ((v₁.knowing method).recorded refusal))) ∧
    (∀ body : Closure σ,
      Vm.settled r (Vm.newProc body) v = .ok (.ok v₁.lastProc) (v₁.addProc body) ∧
      ∀ u, (v₁.addProc body).Reaches AnyProbe u → u.state = .up → ∀ args target blockArg,
        let called := r.callProc v₁.lastProc args target blockArg u
        (v₁.callback .proc = some .closures ∧
          called = asBlock target args (r.enterClosure body args) u) ∨
        ∃ run, v₁.callback .proc = some (.custom run) ∧
          called = asBlock target args (r.enterCustom run ⟨true, args, blockArg⟩) u) := by
  intro r refusal
  have hup : v₁.state = .up := Vm.state_of_ensureSetup hsetup
  have hreached₁ : w.Reaches AnyProbe v₁ := hreached.trans (Vm.reaches_of_ensureSetup hsetup)
  have hequipped₁ := hreached₁.equipped hfresh.equipped hup
  refine ⟨fun kind callback hcallback u hu => hu.callback_kept hcallback,
    hreached.equipped hfresh.equipped, ?_, ?_⟩
  · intro receiver method args body hmethod hsymbol hargs answer
    have hanswer : answer = _ := Vm.settled_apply r _ v
    rw [Vm.callWithBlock_run hsetup hmethod,
      Vm.callWithBlock_run_of_up hmethod hsymbol receiver hargs body hup] at hanswer
    obtain ⟨callback, hcallback⟩ := hequipped₁ .block
    rw [hcallback] at hanswer
    cases callback with
    | closures =>
        refine .inl ⟨hcallback, hanswer.trans (Vm.settled_apply r _ _).symm, ?_⟩
        intro u hu call target items hblock
        exact hu.yieldBlock_eq hcallback hblock items
    | custom run => exact .inr ⟨⟨run, hcallback⟩, hanswer⟩
  · intro body
    refine ⟨?_, ?_⟩
    · rw [Vm.settled_apply, Vm.newProc_run hsetup]
    · intro u hu hstill args target blockArg called
      obtain ⟨callback, hcallback⟩ := hequipped₁ .proc
      have hcalled : called = _ := hu.callProc_eq hroom hcallback hstill args target blockArg
      cases callback with
      | closures => exact .inl ⟨hcallback, hcalled⟩
      | custom run => exact .inr ⟨run, hcallback, hcalled⟩

/-- A fresh interpreter, and a callback of the host's in the place of the one for procs, which gives
seven whatever it is called with. -/
def sevens : World Unit :=
  World.setCallback { machine := { heap := ⟨Machine.coreSlots⟩ }, memory := () } .proc
    (.custom fun _ => .done (BlockReturn.value (Value.ofFixnum 7)).toRaw)

/-- There every closure is taken as a proc, and none is run. -/
theorem closures_reached_sevens :
    ∃ v₁, sevens.Fresh ∧ sevens.Reaches AnyProbe sevens ∧
      (Vm.ensureSetup : Checked Unit Unit).run sevens = .ok (.ok ()) v₁ ∧
      v₁.machine.heap.Addressable ∧
      ∀ body : Closure Unit,
        Vm.settled (.ofFuel 1) (Vm.newProc body) sevens = .ok (.ok v₁.lastProc) (v₁.addProc body) ∧
        ∃ w', (Reentry.ofFuel 1).callProc v₁.lastProc [] none Value.nil (v₁.addProc body) =
          .ok (Value.ofFixnum 7) w' := by
  obtain ⟨v₁, hsetup, hroom⟩ : ∃ v₁, (Vm.ensureSetup : Checked Unit Unit).run sevens =
      .ok (.ok ()) v₁ ∧ v₁.machine.heap.Addressable := by
    have hcheck : (match (Vm.ensureSetup : Checked Unit Unit).run sevens with
        | .ok (.ok _) v₁ => decide v₁.machine.heap.Addressable
        | _ => false) = true := by decide +kernel
    split at hcheck
    · exact ⟨_, ‹_›, of_decide_eq_true hcheck⟩
    · cases hcheck
  have hfresh : sevens.Fresh := ⟨rfl, rfl, rfl, rfl⟩
  refine ⟨v₁, hfresh, .refl, hsetup, hroom, fun body => ?_⟩
  obtain ⟨-, -, -, hprocs⟩ := closures_reached 1 hfresh .refl hsetup hroom
  obtain ⟨hmade, hcalled⟩ := hprocs body
  have hup : v₁.state = .up := Vm.state_of_ensureSetup hsetup
  have hplace : v₁.callback .proc = sevens.callback .proc :=
    (Vm.reaches_of_ensureSetup (P := AnyProbe) hsetup).callback_kept rfl
  refine ⟨hmade, ?_⟩
  rcases hcalled _ .refl hup [] none Value.nil with ⟨hclosures, -⟩ | ⟨run, hrun, hcall⟩
  · rw [hplace] at hclosures
    cases hclosures
  · rw [hplace] at hrun
    cases hrun
    exact ⟨_, hcall⟩

end World

end EmbeddedRuby
