import EmbeddedRuby.Proofs.HostClosures

/-!
# A proc in the place of a block

The host can have a method called with a closure as its block, or make a proc of the closure first
and have the method called with the proc.  The two ways lead through different parts of the
interpreter: the block is another one, another callback is looked for when it is called, and a
method that passes its block on passes a proc or nothing.  Where closures run in both places this
makes no difference: the calls come to the same, in the same world.

There is one thing that only a block survives.  If the interpreter is taken down while the method
runs, its procs are gone, and a block that is a closure can still be called.  So the calls are
compared up to that moment (`Eval.CoincideAt`): either they come to the same, or there is a world in
both of them in which the interpreter was just taken down.

That a method cannot tell the two blocks apart is shown part by part: calling the block
(`Reentry.Twin.yieldBlock`), the loops of the interpreter's own methods, methods of the host's
(`Reentry.Twin.routine`), and the call as a whole.

The main statement is `World.proc_as_block`.
-/

namespace EmbeddedRuby

open Eval

variable {σ : Type}

/-! ### Runs that coincide -/

namespace Eval

variable {α β : Type}

/-- Two runs from a world come to the same, or they do not differ before the interpreter was taken
down in both. -/
def CoincideAt (x y : Eval σ α) (w : World σ) : Prop :=
  x w = y w ∨
    ∃ c, c.state = .cleanedUp ∧ w.Reaches AnyProbe c ∧
      c.Reaches AnyProbe (Outcome.world (x w)) ∧ c.Reaches AnyProbe (Outcome.world (y w))

namespace CoincideAt

variable {x y : Eval σ α} {w u : World σ}

/-- After the interpreter was taken down there is nothing to compare. -/
theorem of_down (hdown : w.state = .cleanedUp) (hx : Follows AnyProbe x) (hy : Follows AnyProbe y) :
    CoincideAt x y w :=
  .inr ⟨w, hdown, .refl, World.reaches_of_follows hx w, World.reaches_of_follows hy w⟩

/-- Runs that coincide are the same if the interpreter is not down after the one. -/
theorem eq_of_not_down (h : CoincideAt x y w) (hnot : (Outcome.world (y w)).state ≠ .cleanedUp) :
    x w = y w := by
  rcases h with hsame | ⟨c, hdown, -, -, hright⟩
  · exact hsame
  · exact absurd (hright.cleanedUp_kept hdown) hnot

/-- What does the same as the second of two runs coincides with the first. -/
theorem congr_right {z : Eval σ α} (h : CoincideAt x y w) (hsame : z w = y w) : CoincideAt x z w := by
  unfold CoincideAt at h ⊢
  rwa [hsame]

/-- What is done with the results of two runs may make them coincide from an earlier world on. -/
theorem lift {x' y' : Eval σ β} (h : CoincideAt x y w) (hreached : u.Reaches AnyProbe w)
    (hsame : x w = y w → x' u = y' u)
    (hx : (Outcome.world (x w)).Reaches AnyProbe (Outcome.world (x' u)))
    (hy : (Outcome.world (y w)).Reaches AnyProbe (Outcome.world (y' u))) :
    CoincideAt x' y' u := by
  rcases h with heq | ⟨c, hdown, hc, hleft, hright⟩
  · exact .inl (hsame heq)
  · exact .inr ⟨c, hdown, hreached.trans hc, hleft.trans hx, hright.trans hy⟩

end CoincideAt

/-- An iteration comes to the world of what it encloses, up to the stacks. -/
theorem reaches_iterate (target : Nat) (action : Eval σ Value) (w : World σ) :
    (Outcome.world (action w)).Reaches AnyProbe (Outcome.world (iterate target action w)) := by
  rcases iterate_cases target action w with ⟨v, w₁, hbreak, hvalue⟩ | ⟨-, hsame⟩
  · rw [hbreak, hvalue]
    exact (World.Change.restack w₁ _ _).reaches
  · rw [hsame]

/-- Iterations coincide if what runs in them does. -/
theorem CoincideAt.iterate {x y : Eval σ Value} {w : World σ} (h : CoincideAt x y w)
    (target : Nat) : CoincideAt (iterate target x) (iterate target y) w := by
  refine h.lift .refl (fun hsame => ?_) (reaches_iterate target x w) (reaches_iterate target y w)
  unfold Eval.iterate
  rw [hsame]

/-- Two runs coincide from all worlds that can be reached. -/
structure Coincide (u : World σ) (x y : Eval σ α) : Prop where
  left : Follows AnyProbe x
  right : Follows AnyProbe y
  from_reached : ∀ w, u.Reaches AnyProbe w → CoincideAt x y w

namespace Coincide

variable {u : World σ} {x y : Eval σ α} {f g : α → Eval σ β}

/-- A run coincides with itself. -/
theorem refl (hx : Follows AnyProbe x) : Coincide u x x :=
  ⟨hx, hx, fun _ _ => .inl rfl⟩

/-- What goes on after two runs that coincide has to coincide from where they are the same. -/
theorem bind (hx : Coincide u x y) (hf : ∀ a, Coincide u (f a) (g a)) :
    Coincide u (x >>= f) (y >>= g) := by
  have hleft : Follows AnyProbe (x >>= f) :=
    ToldBy.bind Course.rules hx.left fun a => (hf a).left
  have hright : Follows AnyProbe (y >>= g) :=
    ToldBy.bind Course.rules hx.right fun a => (hf a).right
  have hrest : ∀ {z : Eval σ α} {h : α → Eval σ β}, (∀ a, Follows AnyProbe (h a)) →
      ∀ w, (Outcome.world (z w)).Reaches AnyProbe (Outcome.world ((z >>= h) w)) := by
    intro z h hh w
    rw [bind_apply]
    cases z w with
    | ok a w₁ => exact World.reaches_of_follows (hh a) w₁
    | error exit w₁ => exact .refl
  refine ⟨hleft, hright, fun w hw => ?_⟩
  rcases hx.from_reached w hw with hsame | ⟨c, hdown, hc, hcx, hcy⟩
  · cases hrun : x w with
    | error exit w₁ =>
        left
        rw [bind_apply, bind_apply, ← hsame, hrun]
    | ok a w₁ =>
        have hw₁ : w.Reaches AnyProbe w₁ := by
          have hreached := World.reaches_of_follows hx.left w
          rwa [hrun] at hreached
        have hxf : (x >>= f) w = f a w₁ := by rw [bind_apply, hrun]
        have hyg : (y >>= g) w = g a w₁ := by rw [bind_apply, ← hsame, hrun]
        refine ((hf a).from_reached w₁ (hw.trans hw₁)).lift hw₁ (fun heq => ?_) ?_ ?_
        · rw [hxf, hyg, heq]
        · rw [hxf]
        · rw [hyg]
  · exact .inr ⟨c, hdown, hc, hcx.trans (hrest (fun a => (hf a).left) w),
      hcy.trans (hrest (fun a => (hf a).right) w)⟩

/-- Iterations coincide from all worlds that can be reached, if what runs in them does. -/
theorem iterate {x y : Eval σ Value} (h : Coincide u x y) (target : Nat) :
    Coincide u (iterate target x) (iterate target y) :=
  ⟨ToldBy.iterate Course.rules target h.left, ToldBy.iterate Course.rules target h.right,
    fun w hw => (h.from_reached w hw).iterate target⟩

end Coincide

end Eval

/-! ### The proc and the closure -/

/-- What is composed of what the interpreter does follows a course, whatever its block is. -/
theorem Reentry.Follows.composed_any {α : Type} {r : Reentry σ} (hr : r.Follows AnyProbe)
    {block : Block σ} {allowed : Task → Prop} {action : Eval σ α}
    (h : Composed r block allowed action) : Eval.Follows AnyProbe action := by
  have htask : ∀ task, allowed task → Eval.Follows AnyProbe (perform r task) :=
    fun task _ => follows_perform hr task
  exact Course.blockRules.composed hr.told (Block.uses_iff.mp block.uses_anyProbe) htask h

/-- Where the callback for procs is the one that runs closures, no proc is told of its block. -/
theorem Reentry.callProc_blockArg {r : Reentry σ} {w : World σ}
    (hcallback : w.callback .proc = some .closures) (proc : Value) (args : List Value)
    (target : Option Nat) (blockArg other : Value) :
    r.callProc proc args target blockArg w = r.callProc proc args target other w := by
  unfold callProc
  rw [machine_bind_apply, machine_bind_apply]
  cases w.machine.heap.body? proc with
  | none => rfl
  | some contents =>
      cases contents with
      | proc code =>
          simp only
          rw [get_bind_apply, get_bind_apply]
          refine asBlock_congr ?_
          have hentered : (w.enterBlock target).callback .proc = some .closures := hcallback
          unfold enterCallback
          rw [get_bind_apply, get_bind_apply, hentered]
          cases w.procs[code]? <;> rfl
      | _ => rfl

namespace World

/-- A world in which closures run as blocks and as procs, and `proc` is the proc that was made of
`body`. -/
structure Holds (u : World σ) (proc : Value) (body : Closure σ) : Prop where
  closures : ∀ kind, u.callback kind = some .closures
  standing : u.state = .up ∨ u.state = .cleanedUp
  called : u.state = .up → ∀ (r : Reentry σ) (args : List Value) (target : Option Nat),
    r.callProc proc args target Value.nil u = asBlock target args (r.enterClosure body args) u
  notNil : proc ≠ Value.nil

variable {w u v : World σ} {proc : Value} {body : Closure σ}

/-- An interpreter that is up, or was taken down, is so at every later moment. -/
theorem Reaches.standing (h : w.Reaches AnyProbe u) (hw : w.state = .up ∨ w.state = .cleanedUp) :
    u.state = .up ∨ u.state = .cleanedUp := by
  let Standing : World σ → Prop := fun v => v.state = .up ∨ v.state = .cleanedUp
  have hstep : ∀ {v v' : World σ}, v.Change AnyProbe v' → Standing v → Standing v' := by
    intro v v' hchange hv
    have hnext := hchange.state_next
    show v'.state = .up ∨ v'.state = .cleanedUp
    rcases hnext with hsame | hnext
    · rw [hsame]
      exact hv
    · rcases hv with hup | hdown
      · rw [hup] at hnext
        generalize v'.state = after at hnext ⊢
        cases hnext
        exact .inr rfl
      · rw [hdown] at hnext
        generalize v'.state = after at hnext ⊢
        cases hnext
  exact h.kept hstep hw

/-- A proc that was made of a closure is held at every moment after that. -/
theorem Reaches.holds {made : World σ} (h : (made.addProc body).Reaches AnyProbe u)
    (hup : made.state = .up) (hroom : (made.addProc body).machine.heap.Addressable)
    (hclosures : ∀ kind, u.callback kind = some .closures) : u.Holds made.lastProc body := by
  have hbefore : made.machine.heap.Addressable := by
    have hsize : (made.addProc body).machine.heap.slots.size = made.machine.heap.slots.size + 1 :=
      Array.size_push _
    unfold Heap.Addressable at hroom ⊢
    omega
  refine ⟨hclosures, h.standing (.inl hup), fun hstill r args target => ?_, ?_⟩
  · exact h.callProc_of_callback hbefore (hclosures .proc) hstill args target Value.nil
  · exact Value.ofSlot_ne_nil _

end World

namespace Reentry

/-- From all worlds after `u`, `proc` is the proc that was made of `body`; and `r` is a way to call
back. -/
structure Twin (r : Reentry σ) (u : World σ) (proc : Value) (body : Closure σ) : Prop where
  follows : r.Follows AnyProbe
  holds : ∀ w, u.Reaches AnyProbe w → w.Holds proc body

end Reentry

/-- The same call with another block. -/
def Call.with (call : Call σ) (block : Block σ) : Call σ :=
  { call with block }

namespace Reentry.Twin

open Methods

variable {r : Reentry σ} {u : World σ} {proc : Value} {body : Closure σ}

/-- **Calling the block** runs the closure, whichever of the two it is. -/
theorem yieldBlock (h : r.Twin u proc body) (call : Call σ) (target : Nat) (args : List Value) :
    Coincide u (r.yieldBlock (call.with (.proc proc target)) args)
      (r.yieldBlock (call.with (.host (some body) target)) args) := by
  have hcomposed : ∀ block : Block σ,
      Composed r (call.with block).block (fun _ => True) (r.yieldBlock (call.with block) args) :=
    fun block => .yieldBlock rfl args
  have hfollows : ∀ block : Block σ, Eval.Follows AnyProbe (r.yieldBlock (call.with block) args) :=
    fun block => h.follows.composed_any (hcomposed block)
  refine ⟨hfollows _, hfollows _, fun w hw => ?_⟩
  have hheld := h.holds w hw
  rcases hheld.standing with hup | hdown
  · left
    have hblock : (call.with (.host (some body) target)).block = .host (some body) target := rfl
    have hclosure := World.Reaches.yieldBlock_eq (r := r) (.refl : w.Reaches AnyProbe w)
      (hheld.closures .block) hblock args
    rw [hclosure]
    exact hheld.called hup r args (some target)
  · exact .of_down hdown (hfollows _) (hfollows _)

/-! ### The interpreter's own methods -/

/-- Loops over arrays differ in nothing but the block that they call. -/
theorem eachFrom (h : r.Twin u proc body) (call : Call σ) (target rounds index : Nat)
    (results : List Value) :
    Coincide u (Methods.eachFrom r (call.with (.proc proc target)) rounds index results)
      (Methods.eachFrom r (call.with (.host (some body) target)) rounds index results) := by
  induction rounds generalizing index results with
  | zero => exact .refl (h.follows.composed .exhausted)
  | succ rounds ih =>
      unfold Methods.eachFrom
      refine .bind (.refl (h.follows.composed (composed_item? call.receiver index))) fun item => ?_
      cases item with
      | none => exact .refl (h.follows.composed (.pure _))
      | some item =>
          exact (h.yieldBlock call target [item]).bind fun result => ih (index + 1) (result :: results)

/-- Loops over numbers differ in nothing but the block that they call. -/
theorem timesFrom (h : r.Twin u proc body) (call : Call σ) (target : Nat) (count : Int)
    (rounds : Nat) (index : Int) :
    Coincide u (Methods.timesFrom r (call.with (.proc proc target)) count rounds index)
      (Methods.timesFrom r (call.with (.host (some body) target)) count rounds index) := by
  induction rounds generalizing index with
  | zero => exact .refl (h.follows.composed .exhausted)
  | succ rounds ih =>
      unfold Methods.timesFrom
      by_cases hmore : index < count
      · rw [if_pos hmore, if_pos hmore]
        refine .bind (.refl (h.follows.composed (.newInteger index))) fun current => ?_
        exact (h.yieldBlock call target [current]).bind fun _ => ih (index + 1)
      · rw [if_neg hmore, if_neg hmore]
        exact .refl (h.follows.composed (.pure _))

/-- A proc that is called passes on a proc as its block, but no other block. -/
theorem callReceiver (h : r.Twin u proc body) (call : Call σ) (target : Nat) :
    Coincide u (Methods.callReceiver r (call.with (.proc proc target)))
      (Methods.callReceiver r (call.with (.host (some body) target))) := by
  have hfollows : ∀ blockArg,
      Eval.Follows AnyProbe (r.callProc call.receiver call.args none blockArg) :=
    fun blockArg => h.follows.composed (.callProc _ _ blockArg)
  refine ⟨hfollows _, hfollows _, fun w hw => .inl ?_⟩
  exact callProc_blockArg ((h.holds w hw).closures .proc) _ _ _ _ _

end Reentry.Twin

/-- The interpreter's own methods that look at the block of their call. -/
def Builtin.UsesBlock : Builtin → Prop
  | .arrayEach | .arrayMap | .integerTimes | .procCall => True
  | _ => False

/-- To the others it is all the same what it is. -/
theorem Builtin.run_with {b : Builtin} (hb : ¬b.UsesBlock) (r : Reentry σ) (call : Call σ)
    (block other : Block σ) : b.run r (call.with block) = b.run r (call.with other) := by
  cases b with
  | arrayEach | arrayMap | integerTimes | procCall => exact absurd trivial hb
  | _ => rfl

namespace Reentry.Twin

variable {r : Reentry σ} {u : World σ} {proc : Value} {body : Closure σ}

/-- **The interpreter's own methods** do the same with both blocks. -/
theorem builtin (h : r.Twin u proc body) (b : Builtin) (call : Call σ) (target : Nat) :
    Coincide u (b.run r (call.with (.proc proc target)))
      (b.run r (call.with (.host (some body) target))) := by
  have hcomposed : ∀ block : Block σ,
      Composed r (call.with block).block (fun _ => True) (b.run r (call.with block)) :=
    fun block => Builtin.composed_run b
  have hfollows : ∀ block : Block σ, Eval.Follows AnyProbe (b.run r (call.with block)) :=
    fun block => h.follows.composed_any (hcomposed block)
  by_cases hb : b.UsesBlock
  · cases b with
    | arrayEach =>
        exact (h.eachFrom call target r.rounds 0 []).bind fun _ =>
          .refl (h.follows.composed (.pure _))
    | arrayMap =>
        exact (h.eachFrom call target r.rounds 0 []).bind fun results =>
          .refl (h.follows.composed (.newArray results))
    | integerTimes =>
        refine .bind (.refl (h.follows.composed .machine)) fun m => ?_
        exact h.timesFrom call target _ r.rounds 0
    | procCall => exact h.callReceiver call target
    | _ => exact hb.elim
  · rw [Builtin.run_with hb r call (.proc proc target) (.host (some body) target)]
    exact .refl (hfollows _)

/-! ### Methods of the host's, and calls -/

/-- **Methods of the host's** do the same with both blocks, whatever else they ask for. -/
theorem routine (h : r.Twin u proc body) (call : Call σ) (target : Nat) (routine : Routine) :
    Coincide u (routine.run r (call.with (.proc proc target)))
      (routine.run r (call.with (.host (some body) target))) := by
  induction routine with
  | done value => exact .refl (h.follows.composed (.pure value))
  | panic message => exact .refl (h.follows.composed (.crash message))
  | perform task next ih => exact .bind (.refl (follows_perform h.follows task)) ih
  | send receiver method args next ih =>
      exact .bind (.refl (h.follows.composed (.sendNamed receiver method args))) ih
  | yield args next ih => exact (h.yieldBlock call target args).bind ih
  | make datum next ih => exact .bind (.refl (h.follows.composed (.make datum))) ih

/-- A method is found without a look at the block, and is told only that there is one. -/
theorem dispatch (h : r.Twin u proc body) (call : Call σ) (target : Nat) :
    Coincide u (dispatch r (call.with (.proc proc target)))
      (dispatch r (call.with (.host (some body) target))) := by
  refine .bind (.refl (h.follows.composed .machine)) fun m => ?_
  -- The receiver, the name and the arguments are the same with either block.
  have hinvocation : (call.with (.proc proc target)).toInvocation =
      (call.with (.host (some body) target)).toInvocation := rfl
  have hreceiver (block : Block σ) : (call.with block).receiver = call.receiver := rfl
  have hmethod (block : Block σ) : (call.with block).method = call.method := rfl
  rw [hinvocation]
  simp only [hreceiver, hmethod]
  cases m.findMethod (m.heap.classOf call.receiver) call.method with
  | none => exact .refl (h.follows.composed (.raise _))
  | some method =>
      cases method with
      | builtin b => exact h.builtin b call target
      | routine make => exact h.routine call target _

end Reentry.Twin

/-! ### The calls as operations -/

namespace Vm

variable {α β : Type} {r : Reentry σ} {w u : World σ}

/-- A jump that surfaces comes to a world that can be reached. -/
theorem reaches_surface (hr : r.Follows AnyProbe) (jump : Jump) (w : World σ) :
    w.Reaches AnyProbe (Outcome.world (surface r jump w)) := by
  have hcleared : w.Reaches AnyProbe w.withoutPending := (World.Change.withoutPending w).reaches
  have hrecorded : ∀ (v : World σ) error, v.Change AnyProbe (v.recorded error) :=
    fun v error => .step (.record v error)
  rw [surface_apply]
  cases hparked : w.parked with
  | some p => exact hcleared.tail (.resume _ p)
  | none =>
      simp only
      by_cases hnil : w.machine.errinfo = Value.nil
      · rw [if_pos hnil]
        exact hcleared.tail (hrecorded _ _)
      · rw [if_neg hnil, bind_apply]
        have hreport : Follows AnyProbe (report r w.machine.errinfo) :=
          told_report Course.operationRules (fun task _ => follows_perform hr task) _
        have hreached := World.reaches_of_follows hreport w.withoutPending
        cases hrun : report r w.machine.errinfo w.withoutPending with
        | error exit v =>
            rw [hrun] at hreached
            exact hcleared.trans hreached
        | ok found v =>
            rw [hrun] at hreached
            exact (hcleared.trans hreached).tail (hrecorded _ _)

/-- Settling a task goes on where the task has ended. -/
theorem reaches_settled_guarded (hr : r.Follows AnyProbe) (action : Eval σ α) (w : World σ) :
    (Outcome.world (action w)).Reaches AnyProbe
      (Outcome.world (settled r (guarded action) w)) := by
  rw [settled_guarded_apply]
  cases action w with
  | ok a w₁ => exact .refl
  | error exit w₁ =>
      cases exit with
      | panic p => exact .refl
      | exhausted => exact .refl
      | jump jump =>
          have hrestored : w₁.Change AnyProbe (w₁.restored w) := .restack w₁ _ _
          have hsurfaced := reaches_surface hr jump (w₁.restored w)
          simp only [map_eq_pure_bind, bind_apply]
          cases hrun : surface r jump (w₁.restored w) with
          | ok error w₂ =>
              rw [hrun] at hsurfaced
              exact .head hrestored hsurfaced
          | error exit w₂ =>
              rw [hrun] at hsurfaced
              exact .head hrestored hsurfaced

/-- Tasks that coincide still do when they are settled. -/
theorem coincideAt_settled_guarded (hr : r.Follows AnyProbe) {x y : Eval σ α}
    (h : CoincideAt x y w) :
    CoincideAt (settled r (guarded x)) (settled r (guarded y)) w := by
  refine h.lift .refl (fun hsame => ?_) (reaches_settled_guarded hr x w)
    (reaches_settled_guarded hr y w)
  rw [settled_guarded_apply, settled_guarded_apply, hsame]

/-- A proc that was made was made after the interpreter was brought up. -/
theorem newProc_settled_inv {v : World σ} {body : Closure σ} {proc : Value}
    (h : settled r (newProc body) v = .ok (.ok proc) w) :
    ∃ v₁, (ensureSetup : Checked σ Unit).run v = .ok (.ok ()) v₁ ∧ proc = v₁.lastProc ∧
      w = v₁.addProc body := by
  cases hsetup : (ensureSetup : Checked σ Unit).run v with
  | error exit v₁ =>
      unfold newProc at h
      rw [settled_bind_apply, hsetup] at h
      cases h
  | ok result v₁ =>
      match result with
      | .ok () =>
          rw [settled_apply, newProc_run hsetup] at h
          cases h
          exact ⟨v₁, rfl, rfl, rfl⟩
      | .error (.refused error) =>
          unfold newProc at h
          rw [settled_bind_apply, hsetup] at h
          cases h
      | .error (.exited jump) =>
          unfold newProc at h
          rw [settled_bind_apply, hsetup] at h
          exact absurd h (surfaced_ne_ok r)

/-- Operations that begin in the same way coincide if what they go on with does. -/
theorem coincideAt_settled_bind (hr : r.Follows AnyProbe) {first : Checked σ β}
    (hfirst : Stepwise r (Closure.Uses AnyProbe) first) {f g : β → Checked σ α}
    (h : ∀ b v, w.Reaches AnyProbe v → CoincideAt (settled r (f b)) (settled r (g b)) v) :
    CoincideAt (settled r (first >>= f)) (settled r (first >>= g)) w := by
  have htold := hfirst.told Course.operationRules hr.told (fun task _ => follows_perform hr task) w
  have hleft := settled_bind_apply (r := r) first f w
  have hright := settled_bind_apply (r := r) first g w
  cases hrun : first.run w with
  | error exit v =>
      rw [hrun] at hleft hright
      exact .inl (hleft.trans hright.symm)
  | ok result v =>
      rw [hrun] at hleft hright
      match result with
      | .error (.refused error) => exact .inl (hleft.trans hright.symm)
      | .error (.exited jump) => exact .inl (hleft.trans hright.symm)
      | .ok b =>
          have hcourse : Course AnyProbe none w .value v := htold.of_run hrun w.hostCode_anyProbe
          refine (h b v hcourse.reaches).lift hcourse.reaches (fun hsame => ?_) ?_ ?_
          · exact hleft.trans (hsame.trans hright.symm)
          · rw [hleft]
          · rw [hright]

end Vm

namespace World

variable {u : World σ} {proc : Value} {body : Closure σ}

/-- The calls of a method coincide, whatever the method is. -/
theorem coincide_send (fuel : Nat) (hholds : ∀ w, u.Reaches AnyProbe w → w.Holds proc body)
    (call : Call σ) (target : Nat) :
    Coincide u ((Reentry.ofFuel fuel).send (call.with (.proc proc target)))
      ((Reentry.ofFuel fuel).send (call.with (.host (some body) target))) := by
  cases fuel with
  | zero => exact .refl fun w _ => .exhausted w
  | succ fuel =>
      have htwin : (Reentry.ofFuel fuel).Twin u proc body :=
        ⟨Reentry.follows_ofFuel AnyProbe fuel, hholds⟩
      exact htwin.dispatch call target

/-- The tasks that call a method for the host coincide, whatever the method is. -/
theorem coincide_call (fuel : Nat) (hholds : ∀ w, u.Reaches AnyProbe w → w.Holds proc body)
    (receiver : Value) (method : SymbolId) (args : List Value) :
    Coincide u (perform (.ofFuel fuel) (.callWithProc receiver method args proc))
      (callWithClosure (.ofFuel fuel) receiver method args body) := by
  let call : Call σ := { receiver, method, args }
  have hr : (Reentry.ofFuel fuel : Reentry σ).Follows AnyProbe := Reentry.follows_ofFuel AnyProbe fuel
  have hopen : perform (.ofFuel fuel) (.callWithProc receiver method args proc) =
      (do
        let target ← newTarget
        iterate target ((Reentry.ofFuel fuel).send (call.with (.proc proc target)))) :=
    if_neg (hholds u .refl).notNil
  have htarget : Follows AnyProbe (newTarget : Eval σ Nat) :=
    hr.composed (.works fun m => .newTarget m)
  rw [hopen]
  exact .bind (.refl htarget) fun target => (coincide_send fuel hholds call target).iterate target

/-- And so do the operations. -/
theorem coincideAt_settled_call (fuel : Nat) (hholds : ∀ w, u.Reaches AnyProbe w → w.Holds proc body)
    (receiver : Value) (method : String) (args : List Value) :
    let r : Reentry σ := .ofFuel fuel
    CoincideAt (Vm.settled r (Vm.callWithProc r receiver method args proc))
      (Vm.settled r (Vm.callWithBlock r receiver method args body)) u := by
  intro r
  have hr : r.Follows AnyProbe := Reentry.follows_ofFuel AnyProbe fuel
  unfold Vm.callWithProc Vm.callWithBlock
  refine Vm.coincideAt_settled_bind hr (.checkedName .method method) fun id v hv => ?_
  refine Vm.coincideAt_settled_bind hr (.checkCount _) fun _ w hw => ?_
  have hreached : u.Reaches AnyProbe w := hv.trans hw
  have hcallback : w.blockCallback = some .closures := (hholds w hreached).closures .block
  have hcalled := (coincide_call fuel hholds receiver id args).from_reached w hreached
  refine (Vm.coincideAt_settled_guarded hr hcalled).congr_right ?_
  rw [Vm.settled_apply, Vm.settled_apply, run_get_bind_apply, hcallback]
  rfl

/-- After the interpreter was taken down both are refused. -/
theorem settled_call_of_down (r : Reentry σ) (hdown : u.state = .cleanedUp) (receiver : Value)
    (method : String) (args : List Value) :
    Vm.settled r (Vm.callWithProc r receiver method args proc) u =
      Vm.settled r (Vm.callWithBlock r receiver method args body) u := by
  have hrefusal : u.state.refusal? = some (.setup Vm.cleanedUpReason) := by
    rw [hdown]
    rfl
  obtain ⟨error, hrefused⟩ : ∃ error, Vm.RefusedAt (Vm.checkedName r .method method) error u := by
    rcases Vm.gated_checkedName (r := r) .method method with ⟨error, hhost⟩ | hstate
    · exact ⟨error, hhost u⟩
    · exact ⟨_, hstate u _ hrefusal⟩
  exact (hrefused.bind _).settled.trans (hrefused.bind _).settled.symm

end World

/-! ### Code that keeps to itself -/

/-- The code asks the interpreter for nothing: it looks at its memory, changes it, and ends. -/
def Program.KeepsToItself : {role : Role} → Program σ role → Prop
  | _, .done _ => True
  | _, .panic _ => True
  | _, .recall next => ∀ memory, Program.KeepsToItself (next memory)
  | _, .remember _ next => Program.KeepsToItself next
  | _, .ask .. => False
  | _, .probe .. => False
  | _, .callWithBlock .. => False
  | _, .newProc .. => False
  | _, .register .. => False

/-- A body that does nothing but end in some way, which may depend on all that it has kept of the
times that it was called before. -/
def Closure.KeepsToItself (body : Closure σ) : Prop :=
  ∀ args, Program.KeepsToItself (body args)

namespace World

/-- The interpreter is up, and no code of the host's in it asks it for anything. -/
structure Undisturbed (w : World σ) : Prop where
  state : w.state = .up
  procs : ∀ body ∈ w.procs, Closure.KeepsToItself body
  closures : ∀ kind, w.callback kind = some .closures

variable {w w' : World σ}

/-- An interpreter is undisturbed as long as nothing happens on the host's side. -/
theorem Undisturbed.of_same (hw : w.Undisturbed) (h : w.SameHost w') : w'.Undisturbed := by
  refine ⟨h.state.trans hw.state, ?_, fun kind => (h.callback kind).trans (hw.closures kind)⟩
  rw [h.procs]
  exact hw.procs

/-- A proc of code that keeps to itself does not disturb it. -/
theorem Undisturbed.addProc (hw : w.Undisturbed) {body : Closure σ}
    (hbody : Closure.KeepsToItself body) : (w.addProc body).Undisturbed := by
  refine ⟨hw.state, fun other hother => ?_, hw.closures⟩
  rcases Array.mem_push.mp hother with hbefore | rfl
  · exact hw.procs other hbefore
  · exact hbody

/-- Of every run it can be told that an interpreter that was undisturbed still is. -/
def undisturbedAccount : Account σ :=
  fun w _ w' => w.Undisturbed → w'.Undisturbed

/-- What the interpreter does by itself does not disturb it. -/
theorem undisturbed_rules : (undisturbedAccount : Account σ).Rules where
  done _ hw := hw
  seq hfirst hrest hw := hrest (hfirst hw)
  works _ _ _ hw := hw.of_same (.of_eq rfl rfl rfl rfl rfl)
  raise _ _ hw := hw.of_same (.of_eq rfl rfl rfl rfl rfl)
  raiseObject _ _ _ hw := hw.of_same (.of_eq rfl rfl rfl rfl rfl)
  breakOut _ _ hw := hw
  crash _ _ hw := hw
  exhausted _ hw := hw
  iterate hinner hw := (hinner hw).of_same (.of_eq rfl rfl rfl rfl rfl)

/-- Blocks do not disturb the interpreter, whatever runs in them. -/
theorem undisturbed_blockRules : (undisturbedAccount : Account σ).BlockRules where
  toRules := undisturbed_rules
  block {w _ target} hinner hw := by
    have hentered : (w.enterBlock target).Undisturbed := hw.of_same (.of_eq rfl rfl rfl rfl rfl)
    exact (hinner hentered).of_same (.of_eq rfl rfl rfl rfl rfl)
  blockLeft hinner _ hw := hinner (hw.of_same (.of_eq rfl rfl rfl rfl rfl))
  callback hinner hw := (hinner hw).of_same (.of_eq rfl rfl rfl rfl rfl)

/-- Operations that hand over code that keeps to itself do not disturb the interpreter. -/
theorem undisturbed_operationRules :
    (undisturbedAccount : Account σ).OperationRules Closure.KeepsToItself where
  toBlockRules := undisturbed_blockRules
  setup hunknown _ hw := by
    rw [hw.state] at hunknown
    cases hunknown
  learn _ _ _ hw := ⟨hw.state, hw.procs, hw.closures⟩
  boxed _ hw := hw.of_same (.of_eq rfl rfl rfl rfl rfl)
  addProc _ hbody hw := hw.addProc hbody
  settled hinner _ hw := (hinner hw).of_same (.of_eq rfl rfl rfl rfl rfl)
  resumed hinner _ hw := (hinner hw).of_same (.of_eq rfl rfl rfl rfl rfl)
  quiet {w w₁ _} hinner hw := by
    obtain ⟨panicLog, hoverlook⟩ := (w₁.restored w).withoutPending.overlook_eq
    rw [hoverlook]
    exact (hinner hw).of_same (.of_eq rfl rfl rfl rfl rfl)

end World

/-- Code that keeps to itself does not disturb the interpreter. -/
theorem Program.undisturbed_run {r : Reentry σ} {role : Role} {program : Program σ role}
    (hprogram : program.KeepsToItself) : ToldBy World.undisturbedAccount (program.run r) := by
  induction program with
  | done result => exact .pure World.undisturbed_rules result
  | panic message => exact fun w => World.undisturbed_rules.crash w ⟨message⟩
  | «recall» next ih => exact fun w => .get_bind (ih w.memory (hprogram w.memory) w)
  | remember memory next ih =>
      intro w hw
      exact ih hprogram { w with memory } (hw.of_same (.of_eq rfl rfl rfl rfl rfl))
  | ask | probe | callWithBlock | newProc | register => exact hprogram.elim

/-- No task disturbs the interpreter if calling back does not. -/
theorem undisturbed_perform {r : Reentry σ}
    (hr : r.ToldBy World.undisturbedAccount Closure.KeepsToItself) (task : Task) :
    ToldBy World.undisturbedAccount (perform r task) := by
  have hordinary : World.undisturbedAccount.TellsOrdinary r := World.undisturbed_blockRules.ordinary hr
  have hframes : (World.undisturbedAccount : Account σ).LetsFramesChange := fun w frames hw =>
    hw.of_same (.of_eq rfl rfl rfl rfl rfl)
  have hdefs : (World.undisturbedAccount : Account σ).TellsDefinitions r :=
    .of_deeds World.undisturbed_rules hordinary fun w _ _ hw =>
      hw.of_same (.of_eq rfl rfl rfl rfl rfl)
  have hload := World.undisturbed_rules.loadObject hordinary hframes hdefs
  exact World.undisturbed_rules.perform_any hordinary hload
    (fun w hw => hw.of_same (.of_eq rfl rfl rfl rfl rfl)) task

/-- **However deep calls are nested**, an interpreter in which all code keeps to itself stays up. -/
theorem Reentry.undisturbed_ofFuel (fuel : Nat) :
    (Reentry.ofFuel fuel : Reentry σ).ToldBy World.undisturbedAccount Closure.KeepsToItself := by
  induction fuel with
  | zero => exact ⟨fun _ _ _ hw => hw, fun _ _ hw => hw⟩
  | succ fuel ih =>
      refine ⟨fun call hcall w => ?_, fun program hoffers hw => ?_⟩
      · have htask : ∀ task, True →
            Eval.ToldBy World.undisturbedAccount (perform (.ofFuel fuel) task) :=
          fun task _ => undisturbed_perform ih task
        exact World.undisturbed_blockRules.dispatch ih hcall htask fun _ body _ invocation =>
          (body invocation).within_any
      · have hkeeps : program.KeepsToItself := by
          cases hoffers with
          | handed hbody args => exact hbody args
          | proc hbody args => exact hw.procs _ hbody args
          | @callback kind run hrun input =>
              rw [hw.closures kind] at hrun
              cases hrun
        exact Program.undisturbed_run hkeeps _ hw

namespace World

variable {v w u : World σ} {proc : Value} {body : Closure σ}

/-- A call with a block leaves an interpreter up in which all code keeps to itself. -/
theorem Undisturbed.callWithBlock (hu : u.Undisturbed) (fuel : Nat)
    (hbody : Closure.KeepsToItself body) (receiver : Value) (method : String) (args : List Value) :
    let r : Reentry σ := .ofFuel fuel
    (Outcome.world (Vm.settled r (Vm.callWithBlock r receiver method args body) u)).state = .up := by
  intro r
  have hr : r.ToldBy undisturbedAccount Closure.KeepsToItself := Reentry.undisturbed_ofFuel fuel
  have hanswered := (Vm.Stepwise.callWithBlock (r := r) receiver method args hbody).settled
    undisturbed_operationRules hr (fun task _ => undisturbed_perform hr task) u
  cases hrun : Vm.settled r (Vm.callWithBlock r receiver method args body) u with
  | error exit w =>
      rw [hrun] at hanswered
      exact (hanswered.1 hu).state
  | ok answer w =>
      rw [hrun] at hanswered
      cases answer with
      | ok value => exact (hanswered hu).state
      | error error =>
          obtain ⟨w₁, hw₁, rfl⟩ := hanswered
          exact (hw₁ hu).state

/-- **A proc in the place of a block.**  A proc was made of a body of the host's.  At every later
moment at which closures run as blocks and as procs, and for every method, be it one of the
interpreter's own or of the host's, and all arguments: calling it with the proc comes to the same as
calling it with the body as a block, in the same world.  That world has the host's memory in it, so
the body is called with the same arguments, one time after the other, whatever it ends with each
time; and the answer is the same value, error or panic.

If something takes the interpreter down before the method ends, this holds up to that moment: the block
can still be called then, and the proc is gone.  Nothing has done so if the interpreter is up after the
call with the block, and nothing does so if all of the host's code keeps to itself. -/
theorem proc_as_block (fuel : Nat)
    (hmade : Vm.settled (.ofFuel fuel) (Vm.newProc body) v = .ok (.ok proc) w)
    (hroom : w.machine.heap.Addressable)
    (hreached : w.Reaches AnyProbe u)
    (hclosures : ∀ kind, u.callback kind = some .closures)
    (receiver : Value) (method : String) (args : List Value) :
    let r : Reentry σ := .ofFuel fuel
    let withProc := Vm.settled r (Vm.callWithProc r receiver method args proc) u
    let withBlock := Vm.settled r (Vm.callWithBlock r receiver method args body) u
    (withProc = withBlock ∨
      u.state = .up ∧ ∃ c, c.state = .cleanedUp ∧ u.Reaches AnyProbe c ∧
        c.Reaches AnyProbe (Outcome.world withProc) ∧
        c.Reaches AnyProbe (Outcome.world withBlock)) ∧
    ((Outcome.world withBlock).state ≠ .cleanedUp → withProc = withBlock) ∧
    ((∀ other ∈ u.procs, Closure.KeepsToItself other) → Closure.KeepsToItself body →
      withProc = withBlock) := by
  intro r withProc withBlock
  obtain ⟨v₁, hsetup, rfl, rfl⟩ := Vm.newProc_settled_inv hmade
  have hup : v₁.state = .up := Vm.state_of_ensureSetup hsetup
  have hholds : ∀ u', u.Reaches AnyProbe u' → u'.Holds v₁.lastProc body := fun u' hu' =>
    Reaches.holds (hreached.trans hu') hup hroom fun kind => hu'.callback_kept (hclosures kind)
  rcases (hholds u .refl).standing with hstill | hdown
  · have hcoincide : CoincideAt _ _ u := coincideAt_settled_call fuel hholds receiver method args
    refine ⟨hcoincide.imp id fun htaken => ⟨hstill, htaken⟩, hcoincide.eq_of_not_down,
      fun hprocs hbody => ?_⟩
    have hundisturbed : u.Undisturbed := ⟨hstill, hprocs, hclosures⟩
    have hafter := hundisturbed.callWithBlock fuel hbody receiver method args
    exact hcoincide.eq_of_not_down (by simp [hafter])
  · have hsame : withProc = withBlock := settled_call_of_down r hdown receiver method args
    exact ⟨.inl hsame, fun _ => hsame, fun _ _ => hsame⟩

/-- A body that keeps what it is called with, and breaks off the second time. -/
def recording : Closure (List (List Value)) := fun args =>
  .recall fun seen => .remember (seen ++ [args]) (.done <|
    if seen = [] then BlockReturn.value Value.nil else BlockReturn.breakValue (Value.ofFixnum 7))

/-- A world in which integers have the method `times`, before it has been kept what a body was called
with. -/
def unrecorded : World (List (List Value)) where
  machine := {
    heap := ⟨Machine.coreSlots⟩
    methods := ⟨[((CoreClass.integer.value, ⟨1⟩), .builtin .integerTimes)]⟩ }
  state := .up
  ids := ⟨[("times", ⟨1⟩)]⟩
  blockCallback := some .closures
  procCallback := some .closures
  memory := []

/-- Counting to three with that body is broken off at one, with its proc as without. -/
theorem proc_as_block_recording :
    let r : Reentry (List (List Value)) := .ofFuel 4
    let w := unrecorded.addProc recording
    let withProc :=
      Vm.settled r (Vm.callWithProc r (Value.ofFixnum 3) "times" [] unrecorded.lastProc) w
    Vm.settled r (Vm.newProc recording) unrecorded = .ok (.ok unrecorded.lastProc) w ∧
      w.machine.heap.Addressable ∧ w.Reaches AnyProbe w ∧
      (∀ kind, w.callback kind = some .closures) ∧
      withProc = Vm.settled r (Vm.callWithBlock r (Value.ofFixnum 3) "times" [] recording) w ∧
      (Outcome.world withProc).memory = [[Value.ofFixnum 0], [Value.ofFixnum 1]] := by
  intro r w withProc
  have hmade : Vm.settled r (Vm.newProc recording) unrecorded = .ok (.ok unrecorded.lastProc) w := rfl
  have hroom : w.machine.heap.Addressable := by decide
  have hclosures : ∀ kind, w.callback kind = some .closures := by
    intro kind
    cases kind <;> rfl
  have hkeeps : Closure.KeepsToItself recording := fun _ _ => trivial
  have hprocs : ∀ other ∈ w.procs, Closure.KeepsToItself other := by
    intro other hother
    obtain rfl := Array.mem_singleton.mp hother
    exact hkeeps
  obtain ⟨-, -, hsame⟩ := proc_as_block 4 hmade hroom .refl hclosures (Value.ofFixnum 3) "times" []
  have hkept : (Outcome.world withProc).memory = [[Value.ofFixnum 0], [Value.ofFixnum 1]] := by
    decide +kernel
  exact ⟨hmade, hroom, .refl, hclosures, hsame hprocs hkeeps, hkept⟩

/-- A world in which nil has a method that sends `call` to its argument, and then calls its block. -/
def relaying : World Unit where
  machine := {
    heap := ⟨Machine.coreSlots⟩
    symbols := ⟨#["call", "relay"]⟩
    methods := ⟨[((CoreClass.procClass.value, ⟨1⟩), .builtin .procCall),
      ((CoreClass.nilClass.value, ⟨2⟩), .routine fun invocation =>
        .send (invocation.args.headD Value.nil) "call" [] fun _ => .yield [] .done)]⟩ }
  state := .up
  ids := ⟨[("relay", ⟨2⟩)]⟩
  blockCallback := some .closures
  procCallback := some .closures
  memory := ()

-- The argument is a proc that takes the interpreter down.  The block is called after that; a proc in its
-- place is not there any more.
example :
    let r : Reentry Unit := .ofFuel 6
    let body : Closure Unit := fun _ => .done (BlockReturn.value (Value.ofFixnum 7))
    let ending : Closure Unit := fun _ => .ask .cleanUp fun _ => .done (BlockReturn.value Value.nil)
    let made := relaying.addProc body
    let w := made.addProc ending
    Outcome.ending
        (Vm.settled r (Vm.callWithProc r Value.nil "relay" [made.lastProc] relaying.lastProc) w) =
      .exit .exhausted ∧
    Outcome.ending (Vm.settled r (Vm.callWithBlock r Value.nil "relay" [made.lastProc] body) w) =
      .value := by
  decide +kernel

end World

end EmbeddedRuby
