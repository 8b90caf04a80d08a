import EmbeddedRuby.Proofs.ParkedPanics
import EmbeddedRuby.Proofs.SettledErrors

/-!
# Iterating with a block of the host's

The host calls `each`, `map` or `times` and hands over a body.  Between the body and the answer lies
the whole border: the method calls a block, the block calls back, what the body has ended with is
handed over in its raw form, and a jump leaves the loop for the iteration that it belongs to or for
the barrier.

What all this should come to is said without any of it, by running the body on the items one after
the other (`Reentry.invokeAll`).  The main statements are:

* `Reentry.loopEnds_of_invokeAll`: a loop that makes an item and calls the block on it ends as
  running the body on the items does;
* `Iteration.run_ends`: so do the three methods;
* `Vm.callWithBlock_iterates`: and so does the call with the body, whose answer tells the host how
  the iteration has ended.
-/

namespace EmbeddedRuby

open Eval

variable {σ : Type}

/-! ### Running a block on items -/

/-- Run a body of the host's. -/
def Reentry.runBody (r : Reentry σ) (body : Closure σ) (args : List Value) :
    Eval σ BlockReturn :=
  r.run (body args)

/-- Run a body on items, one after the other, as a block out of which breaks go to `target`, until
it ends with something else than a value.  The result are its values, and what else it ended with if
it did.  Each item is what the interpreter makes at that moment. -/
def Reentry.invokeAll (r : Reentry σ) (target : Nat) (body : Closure σ) :
    List (Machine → Value × Machine) → Eval σ (List Value × Option BlockReturn)
  | [] => return ([], none)
  | make :: rest => do
    let item ← onMachine make
    let before ← get
    modify (World.enterBlock · (some target))
    match ← r.runBody body [item] with
    | .value v =>
      modify (World.leaveBlock · before)
      let (values, left) ← r.invokeAll target body rest
      return (v :: values, left)
    | outcome => return ([], some outcome)

/-- How a block leaves an iteration, and to which world. -/
inductive Leaves (target : Nat) (w : World σ) : BlockReturn → Jump → World σ → Prop
  | breakOff : Leaves target w .breakOff (.breakTo (some target) Value.nil) w
  | breakValue (v : Value) : Leaves target w (.breakValue v) (.breakTo (some target) v) w
  | raise {exception : Value}
      (hexception : w.machine.heap.isKindOf exception CoreClass.exception.value) :
      Leaves target w (.raise exception) (.raised exception) (w.raisingObject exception)
  | raiseOther {v : Value}
      (hother : ¬w.machine.heap.isKindOf v CoreClass.exception.value) :
      Leaves target w (.raise v) (.raised (w.machine.newException .exceptionExpected).1)
        (w.raising .exceptionExpected)

/-- What a block raises is an exception that is pending then. -/
theorem Leaves.raised {target : Nat} {v : Value} {jump : Jump} {w w' : World σ}
    (h : Leaves target w (.raise v) jump w') :
    jump = .raised w'.machine.errinfo ∧ w'.panicLog = w.panicLog := by
  cases h <;> exact ⟨rfl, rfl⟩

namespace Reentry

variable {r : Reentry σ} {target : Nat} {body : Closure σ}

/-- Running a body on some items is running it on the first, and on the others if that gives a
value. -/
theorem invokeAll_cons_apply (make : Machine → Value × Machine)
    (rest : List (Machine → Value × Machine)) (w : World σ) :
    r.invokeAll target body (make :: rest) w =
      match r.runBody body [(make w.machine).1]
          ((w.onMachine fun m => (make m).2).enterBlock (some target)) with
      | .ok (.value v) w₁ =>
        match r.invokeAll target body rest
            (w₁.leaveBlock (w.onMachine fun m => (make m).2)) with
        | .ok (values, left) w₂ => .ok (v :: values, left) w₂
        | .error exit w₂ => .error exit w₂
      | .ok outcome w₁ => .ok ([], some outcome) w₁
      | .error exit w₁ => .error exit w₁ := by
  rw [invokeAll]
  rw [onMachine_bind_apply, get_bind_apply, modify_bind_apply, bind_apply]
  cases r.runBody body [(make w.machine).1]
      ((w.onMachine fun m => (make m).2).enterBlock (some target)) with
  | error exit w₁ => rfl
  | ok outcome w₁ =>
      cases outcome with
      | value v =>
          simp only
          rw [modify_bind_apply, bind_apply]
          cases r.invokeAll target body rest
              (w₁.leaveBlock (w.onMachine fun m => (make m).2)) with
          | ok result w₂ => rfl
          | error exit w₂ => rfl
      | _ => rfl

/-- Running a body follows a course. -/
theorem course_of_runBody (hr : r.Follows AnyProbe) {args : List Value} {outcome : BlockReturn}
    {w w₁ : World σ} (h : r.runBody body args w = .ok outcome w₁) :
    Course AnyProbe none w .value w₁ := by
  have hcourse := (hr.run (body args) (body args).uses_anyProbe w w.hostCode_anyProbe).follows
  have hrun : r.run (body args) w = .ok outcome w₁ := h
  exact hcourse.of_run hrun

/-- What a body has come to is what the interpreter does next. -/
theorem enterCallback_of_runBody {args : List Value} {outcome : BlockReturn} {w w₁ : World σ}
    (hcallback : w.callback .block = some .closures)
    (hrun : r.runBody body args w = .ok outcome w₁) :
    r.enterCallback .block (some body) args Value.nil w =
      (match outcome with
        | .value v => return v
        | .breakOff => breakOut Value.nil
        | .breakValue v => breakOut v
        | .raise exception => raiseObject exception : Eval σ Value) w₁ := by
  have hresult : r.callbackResult .closures (some body) args Value.nil w =
      .ok outcome.toRaw w₁ := by
    change (r.runBody body args >>= fun outcome => (return outcome.toRaw : Eval σ RawReturn)) w = _
    rw [bind_apply, hrun]
    rfl
  unfold enterCallback
  rw [get_bind_apply, hcallback]
  simp only
  rw [bind_apply, catchPanic_apply, hresult]
  simp only [BlockReturn.ofRaw_toRaw]
  cases outcome <;> rfl

/-- A block calls the host, and is over when that has given a value. -/
theorem yieldBlock_apply {call : Call σ} (hblock : call.block = .host (some body) target)
    (item : Value) (w : World σ) :
    r.yieldBlock call [item] w =
      match r.enterCallback .block (some body) [item] Value.nil (w.enterBlock (some target)) with
      | .ok v w' => .ok v (w'.leaveBlock w)
      | .error exit w' => .error exit w' := by
  unfold yieldBlock
  rw [hblock]
  exact asBlock_apply (some target) (by simp [argumentLimit]) _ w

/-- A block whose body ends with a value gives that value and is over. -/
theorem yieldBlock_of_value {call : Call σ} {item v : Value} {w w₁ : World σ}
    (hblock : call.block = .host (some body) target)
    (hcallback : w.callback .block = some .closures)
    (hrun : r.runBody body [item] (w.enterBlock (some target)) = .ok (.value v) w₁) :
    r.yieldBlock call [item] w = .ok v (w₁.leaveBlock w) := by
  have hentered : (w.enterBlock (some target)).callback .block = some .closures := hcallback
  rw [yieldBlock_apply hblock, enterCallback_of_runBody hentered hrun]
  rfl

/-- A block whose body ends with anything else leaves the iteration. -/
theorem yieldBlock_of_leaves {call : Call σ} {item : Value} {outcome : BlockReturn}
    {w w₁ : World σ} (hr : r.Follows AnyProbe)
    (hblock : call.block = .host (some body) target)
    (hcallback : w.callback .block = some .closures)
    (hrun : r.runBody body [item] (w.enterBlock (some target)) = .ok outcome w₁)
    (hleft : ∀ v, outcome ≠ .value v) :
    ∃ jump w₂, Leaves target w₁ outcome jump w₂ ∧
      r.yieldBlock call [item] w = .error (.jump jump) w₂ := by
  have hyields : w₁.machine.yields = some target :: w.machine.yields :=
    (course_of_runBody hr hrun).yields_eq trivial
  have hbreak : ∀ v, (breakOut v : Eval σ Value) w₁ =
      .error (.jump (.breakTo (some target) v)) w₁ := by
    intro v
    unfold breakOut
    rw [machine_bind_apply, hyields]
    rfl
  have hentered : (w.enterBlock (some target)).callback .block = some .closures := hcallback
  rw [yieldBlock_apply hblock, enterCallback_of_runBody hentered hrun]
  cases outcome with
  | value v => exact absurd rfl (hleft v)
  | breakOff =>
      refine ⟨_, w₁, .breakOff, ?_⟩
      simp only [hbreak]
  | breakValue v =>
      refine ⟨_, w₁, .breakValue v, ?_⟩
      simp only [hbreak]
  | raise exception =>
      simp only [raiseObject]
      rw [machine_bind_apply]
      by_cases hexception : w₁.machine.heap.isKindOf exception CoreClass.exception.value
      · refine ⟨_, _, .raise hexception, ?_⟩
        rw [if_pos hexception]
        rfl
      · refine ⟨_, _, .raiseOther hexception, ?_⟩
        rw [if_neg hexception]
        rfl

/-- What a body comes to on the first of some items, and on the others after it. -/
theorem invokeAll_cons_ok {make : Machine → Value × Machine}
    {rest : List (Machine → Value × Machine)} {w w' : World σ} {values : List Value}
    {left : Option BlockReturn}
    (h : r.invokeAll target body (make :: rest) w = .ok (values, left) w') :
    ∃ outcome w₁, r.runBody body [(make w.machine).1]
        ((w.onMachine fun m => (make m).2).enterBlock (some target)) = .ok outcome w₁ ∧
      ((∃ v others, outcome = .value v ∧ values = v :: others ∧
          r.invokeAll target body rest (w₁.leaveBlock (w.onMachine fun m => (make m).2)) =
            .ok (others, left) w') ∨
        (∀ v, outcome ≠ .value v) ∧ values = [] ∧ left = some outcome ∧ w' = w₁) := by
  rw [invokeAll_cons_apply] at h
  cases hrun : r.runBody body [(make w.machine).1]
      ((w.onMachine fun m => (make m).2).enterBlock (some target)) with
  | error exit w₁ =>
      rw [hrun] at h
      cases h
  | ok outcome w₁ =>
      rw [hrun] at h
      refine ⟨outcome, w₁, rfl, ?_⟩
      cases outcome with
      | value v =>
          left
          simp only at h
          cases hrest : r.invokeAll target body rest
              (w₁.leaveBlock (w.onMachine fun m => (make m).2)) with
          | error exit w₂ =>
              rw [hrest] at h
              cases h
          | ok result w₂ =>
              rw [hrest] at h
              cases h
              exact ⟨v, result.1, rfl, rfl, rfl⟩
      | _ =>
          right
          cases h
          exact ⟨by simp, rfl, rfl, rfl⟩

/-- How a loop ends that calls the block on items: with the values, or left where the body has left
it. -/
def LoopEnds (target : Nat) {α : Type} (loop : Outcome σ α) (a : α) (left : Option BlockReturn)
    (w : World σ) : Prop :=
  match left with
  | none => loop = .ok a w
  | some outcome => ∃ jump w', Leaves target w outcome jump w' ∧ loop = .error (.jump jump) w'

/-- The worlds in which the body has come to a value for each of the first items keep a property. -/
def KeptBetween (r : Reentry σ) (target : Nat) (body : Closure σ)
    (makes : List (Machine → Value × Machine)) (Kept : World σ → Prop) (w : World σ) : Prop :=
  ∀ count values w', r.invokeAll target body (makes.take count) w = .ok (values, none) w' → Kept w'

/-- The property holds before the first item. -/
theorem KeptBetween.head {makes : List (Machine → Value × Machine)} {Kept : World σ → Prop}
    {w : World σ} (h : KeptBetween r target body makes Kept w) : Kept w :=
  h 0 [] w rfl

/-- The property is kept over the other items from where the body has come to on the first. -/
theorem KeptBetween.tail {make : Machine → Value × Machine}
    {rest : List (Machine → Value × Machine)} {Kept : World σ → Prop} {w w₁ : World σ} {v : Value}
    (h : KeptBetween r target body (make :: rest) Kept w)
    (hrun : r.runBody body [(make w.machine).1]
      ((w.onMachine fun m => (make m).2).enterBlock (some target)) = .ok (.value v) w₁) :
    KeptBetween r target body rest Kept (w₁.leaveBlock (w.onMachine fun m => (make m).2)) := by
  intro count values w' hinvoke
  apply h (count + 1) (v :: values) w'
  rw [List.take_succ_cons, invokeAll_cons_apply, hrun]
  simp only
  rw [hinvoke]

/-- A loop that makes an item and calls the block on it, one item after the other, ends as running
the body on the items does.  `loop k results` is what is left of the loop after `k` items, with the
results so far in reverse. -/
theorem loopEnds_of_invokeAll (hr : r.Follows AnyProbe) {call : Call σ}
    (hblock : call.block = .host (some body) target) {α : Type}
    {makes : List (Machine → Value × Machine)} {Kept : World σ → Prop}
    (loop : Nat → List Value → Eval σ α) (finish : List Value → α)
    (hdone : ∀ results w, Kept w →
      loop makes.length results w = .ok (finish results.reverse) w)
    (hstep : ∀ k make, makes[k]? = some make → ∀ results w, Kept w →
      loop k results w =
        (onMachine make >>= fun item => r.yieldBlock call [item] >>= fun v =>
          loop (k + 1) (v :: results)) w)
    {rest : List (Machine → Value × Machine)} {k : Nat} (hrest : makes.drop k = rest)
    (hk : k ≤ makes.length) (results : List Value) {w w' : World σ} {values : List Value}
    {left : Option BlockReturn}
    (hcallback : w.callback .block = some .closures)
    (hkept : KeptBetween r target body rest Kept w)
    (hinvoke : r.invokeAll target body rest w = .ok (values, left) w') :
    LoopEnds target (loop k results w) (finish (results.reverse ++ values)) left w' := by
  -- The loop carries its index and its results, so both vary with the items that are left.
  induction rest generalizing k results w values with
  | nil =>
      obtain rfl : k = makes.length := Nat.le_antisymm hk (List.drop_eq_nil_iff.mp hrest)
      cases hinvoke
      rw [List.append_nil]
      exact hdone results _ hkept.head
  | cons make rest ih =>
      have hmake : makes[k]? = some make := by
        rw [← List.head?_drop, hrest, List.head?_cons]
      have hlt : k < makes.length := (List.getElem?_eq_some_iff.mp hmake).1
      have hnext : makes.drop (k + 1) = rest := by
        rw [← List.tail_drop, hrest, List.tail_cons]
      have hmade : (w.onMachine fun m => (make m).2).callback .block = some .closures := hcallback
      obtain ⟨outcome, w₁, hrun, hcase⟩ := invokeAll_cons_ok hinvoke
      rw [hstep k make hmake results w hkept.head, onMachine_bind_apply, bind_apply]
      rcases hcase with ⟨v, others, rfl, rfl, hothers⟩ | ⟨hleft, rfl, rfl, rfl⟩
      · rw [yieldBlock_of_value hblock hmade hrun]
        have hbefore : ((w.onMachine fun m => (make m).2).enterBlock (some target)).callback
            .block = some .closures := hcallback
        have hafter : (w₁.leaveBlock (w.onMachine fun m => (make m).2)).callback .block =
            some .closures := (course_of_runBody hr hrun).callback_kept hbefore
        have hends := ih hnext hlt (v :: results) hafter (hkept.tail hrun) hothers
        rw [List.reverse_cons, List.append_assoc] at hends
        exact hends
      · obtain ⟨jump, w₂, hleaves, hyield⟩ :=
          yieldBlock_of_leaves hr hblock hmade hrun hleft
        refine ⟨jump, w₂, hleaves, ?_⟩
        rw [hyield]

end Reentry

/-! ### The methods that iterate -/

/-- The methods that call their block once for each item. -/
inductive Iteration where
  | each
  | map
  | times

namespace Iteration

def name : Iteration → String
  | each => "each"
  | map => "map"
  | times => "times"

def builtin : Iteration → Builtin
  | each => .arrayEach
  | map => .arrayMap
  | times => .integerTimes

/-- How the items are made: those of an array are there, and the numbers up to an integer are made
one by one. -/
def makes (iteration : Iteration) (h : Heap) (receiver : Value) :
    List (Machine → Value × Machine) :=
  match iteration with
  | each | map => ((h.items? receiver).getD []).map fun item m => (item, m)
  | times => (List.range ((h.int? receiver).getD 0).toNat).map fun (i : Nat) m => m.newInteger i

/-- The receiver has the items that it has in `h`. -/
def Keeps (iteration : Iteration) (h : Heap) (receiver : Value) (w : World σ) : Prop :=
  match iteration with
  | each | map => w.machine.heap.items? receiver = h.items? receiver
  | times => True

/-- What the method gives if the block gave these values. -/
def result (iteration : Iteration) (receiver : Value) (values : List Value) : Eval σ Value :=
  match iteration with
  | each | times => return receiver
  | map => onMachine fun m => m.newArray values

/-- How a method that iterates ends. -/
def Ends (iteration : Iteration) (target : Nat) (receiver : Value) (values : List Value)
    (left : Option BlockReturn) (run : Outcome σ Value) (w : World σ) : Prop :=
  match left with
  | none => run = iteration.result receiver values w
  | some outcome => ∃ jump w', Leaves target w outcome jump w' ∧ run = .error (.jump jump) w'

end Iteration

namespace Reentry

variable {r : Reentry σ} {target : Nat} {body : Closure σ} {call : Call σ} {w w' : World σ}
  {values : List Value} {left : Option BlockReturn}

/-- One round of the loop over an array. -/
theorem eachFrom_succ_apply (rounds index : Nat) (results : List Value) (w : World σ) :
    Methods.eachFrom r call (rounds + 1) index results w =
      match (w.machine.heap.items? call.receiver).bind fun items => items[index]? with
      | none => .ok results.reverse w
      | some item =>
        (r.yieldBlock call [item] >>= fun result =>
          Methods.eachFrom r call rounds (index + 1) (result :: results)) w := by
  rw [Methods.eachFrom, bind_apply]
  have hitem : (Methods.item? call.receiver index : Eval σ _) w =
      .ok ((w.machine.heap.items? call.receiver).bind fun items => items[index]?) w := rfl
  rw [hitem]
  cases (w.machine.heap.items? call.receiver).bind fun items => items[index]? with
  | none => rfl
  | some item => rfl

/-- The loop over an array ends as running the body on the items does, if they stay. -/
theorem eachFrom_ends (hr : r.Follows AnyProbe) {items? : Option (List Value)}
    (hblock : call.block = .host (some body) target)
    (hcallback : w.callback .block = some .closures)
    (hrounds : (items?.getD []).length < r.rounds)
    (hkept : r.KeptBetween target body ((items?.getD []).map fun item m => (item, m))
      (fun v => v.machine.heap.items? call.receiver = items?) w)
    (hinvoke : r.invokeAll target body ((items?.getD []).map fun item m => (item, m)) w =
      .ok (values, left) w') :
    LoopEnds target (Methods.eachFrom r call r.rounds 0 [] w) values left w' := by
  have hat : ∀ k : Nat, (items?.bind fun items => items[k]?) = (items?.getD [])[k]? := by
    intro k
    cases items? <;> rfl
  refine loopEnds_of_invokeAll hr hblock
    (fun k results => Methods.eachFrom r call (r.rounds - k) k results) id ?_ ?_ rfl
    (Nat.zero_le _) [] hcallback hkept hinvoke
  · intro results v hv
    have hrest : r.rounds - (items?.getD []).length =
        r.rounds - (items?.getD []).length - 1 + 1 := by omega
    simp only [List.length_map]
    rw [hrest, eachFrom_succ_apply, hv, hat, List.getElem?_eq_none (Nat.le_refl _)]
    rfl
  · intro k make hmake results v hv
    rw [List.getElem?_map] at hmake
    obtain ⟨item, hitem, rfl⟩ := Option.map_eq_some_iff.mp hmake
    have hlt := (List.getElem?_eq_some_iff.mp hitem).1
    have hrest : r.rounds - k = r.rounds - (k + 1) + 1 := by omega
    rw [hrest, eachFrom_succ_apply, hv, hat, hitem]
    rfl

/-- The loop over the integers up to another ends as running the body on them does. -/
theorem timesFrom_ends (hr : r.Follows AnyProbe) (count : Int)
    (hblock : call.block = .host (some body) target)
    (hcallback : w.callback .block = some .closures)
    (hrounds : count.toNat < r.rounds)
    (hinvoke : r.invokeAll target body
      ((List.range count.toNat).map fun (i : Nat) m => m.newInteger i) w = .ok (values, left) w') :
    LoopEnds target (Methods.timesFrom r call count r.rounds 0 w) call.receiver left w' := by
  have hkept : r.KeptBetween target body
      ((List.range count.toNat).map fun (i : Nat) m => m.newInteger i) (fun _ => True) w :=
    fun _ _ _ _ => trivial
  refine loopEnds_of_invokeAll hr hblock
    (fun k _ => Methods.timesFrom r call count (r.rounds - k) k) (fun _ => call.receiver) ?_ ?_ rfl
    (Nat.zero_le _) [] hcallback hkept hinvoke
  · intro results v _
    have hrest : r.rounds - count.toNat = r.rounds - count.toNat - 1 + 1 := by omega
    have hover : ¬(count.toNat : Int) < count := by omega
    simp only [List.length_map, List.length_range]
    rw [hrest, Methods.timesFrom, if_neg hover]
    rfl
  · intro k make hmake results v _
    rw [List.getElem?_map] at hmake
    obtain ⟨i, hi, rfl⟩ := Option.map_eq_some_iff.mp hmake
    obtain ⟨hlt, hget⟩ := List.getElem?_eq_some_iff.mp hi
    rw [List.length_range] at hlt
    obtain rfl : k = i := by simpa using hget
    have hrest : r.rounds - k = r.rounds - (k + 1) + 1 := by omega
    have hunder : (k : Int) < count := by omega
    rw [hrest, Methods.timesFrom, if_pos hunder]
    rfl

end Reentry

namespace Iteration

variable {r : Reentry σ} {target : Nat} {body : Closure σ} {call : Call σ} {w w' : World σ}
  {values : List Value} {left : Option BlockReturn}

/-- What follows a loop in a method is done only if the loop has not been left. -/
theorem ends_of_loopEnds (iteration : Iteration) {α : Type} {loop : Eval σ α} {a : α}
    (h : Reentry.LoopEnds target (loop w) a left w') (next : α → Eval σ Value)
    (hnext : left = none → next a w' = iteration.result call.receiver values w') :
    iteration.Ends target call.receiver values left ((loop >>= next) w) w' := by
  rw [bind_apply]
  cases left with
  | none =>
      have hloop : loop w = .ok a w' := h
      rw [hloop]
      exact hnext rfl
  | some outcome =>
      obtain ⟨jump, w₂, hleaves, hloop⟩ := h
      refine ⟨jump, w₂, hleaves, ?_⟩
      rw [hloop]

/-- A method that iterates ends as running the body on the items does. -/
theorem run_ends (iteration : Iteration) (call : Call σ) (hr : r.Follows AnyProbe)
    (hblock : call.block = .host (some body) target)
    (hcallback : w.callback .block = some .closures)
    (hrounds : (iteration.makes w.machine.heap call.receiver).length < r.rounds)
    (hkept : r.KeptBetween target body (iteration.makes w.machine.heap call.receiver)
      (iteration.Keeps w.machine.heap call.receiver) w)
    (hinvoke : r.invokeAll target body (iteration.makes w.machine.heap call.receiver) w =
      .ok (values, left) w') :
    iteration.Ends target call.receiver values left (iteration.builtin.run r call w) w' := by
  cases iteration with
  | each =>
      simp only [makes, List.length_map] at hrounds
      have hloop := Reentry.eachFrom_ends hr hblock hcallback hrounds hkept hinvoke
      exact ends_of_loopEnds each hloop (fun _ => return call.receiver) fun _ => rfl
  | map =>
      simp only [makes, List.length_map] at hrounds
      have hloop := Reentry.eachFrom_ends hr hblock hcallback hrounds hkept hinvoke
      exact ends_of_loopEnds map hloop (fun items => onMachine fun m => m.newArray items)
        fun _ => rfl
  | times =>
      simp only [makes, List.length_map, List.length_range] at hrounds
      have hloop := Reentry.timesFrom_ends hr _ hblock hcallback hrounds hinvoke
      cases left with
      | none => exact hloop
      | some outcome => exact hloop

end Iteration

/-! ### Calling such a method with a block -/

/-- What runs when a method is called. -/
def Method.body (r : Reentry σ) (call : Call σ) : Method → Eval σ Value
  | .builtin b => b.run r call
  | .routine code => Routine.run r call (code call.toInvocation)

/-- The number of a name that the host knows already, or gets to know. -/
def World.idOf (w : World σ) (name : String) : SymbolId :=
  (w.ids.get? name).getD (w.machine.intern name).1

/-- The world in which the host knows the number of a name. -/
def World.knowing (w : World σ) (name : String) : World σ :=
  if (w.ids.get? name).isSome then w else w.learn name

/-- Getting to know a name does not concern the callbacks. -/
theorem World.knowing_callback (w : World σ) (name : String) (kind : CallbackKind) :
    (w.knowing name).callback kind = w.callback kind := by
  unfold World.knowing
  split <;> rfl

/-- Getting to know a name does not concern panics. -/
theorem World.knowing_panics (w : World σ) (name : String) :
    (w.knowing name).parked = w.parked ∧ (w.knowing name).panicLog = w.panicLog := by
  unfold World.knowing
  split <;> exact ⟨rfl, rfl⟩

/-- Getting to know a name leaves a world in order. -/
theorem World.InOrder.knowing {w : World σ} (h : w.InOrder) (name : String) :
    (w.knowing name).InOrder := by
  unfold World.knowing
  split
  · exact h
  · exact h.of_eq rfl rfl

/-- The world in which an iteration has a number. -/
def World.iterating (w : World σ) : World σ :=
  w.onMachine fun m => { m with lastTarget := m.lastTarget + 1 }

namespace Vm

variable {r : Reentry σ}

/-- While the interpreter is up the number of a name is had at once. -/
theorem internedName_run_of_up {name : String} (hname : isName .symbol name) {w : World σ}
    (hup : w.state = .up) :
    (internedName r name).run w = .ok (.ok (w.idOf name)) (w.knowing name) := by
  unfold internedName
  rw [run_bind_apply, ensureSetup_run_of_up hup]
  simp only
  rw [run_get_bind_apply]
  unfold World.idOf World.knowing
  cases hid : w.ids.get? name with
  | some id => rfl
  | none =>
      unfold checkName
      simp only [hname, if_true]
      exact attempt_intern_run_apply (r := r) name w

/-- While the interpreter is up the number of a name that passes its check is had at once. -/
theorem checkedName_run_of_up {kind : IdentifierKind} {name : String} (hkind : isName kind name)
    (hname : isName .symbol name) {w : World σ} (hup : w.state = .up) :
    (checkedName r kind name).run w = .ok (.ok (w.idOf name)) (w.knowing name) := by
  unfold checkedName checkName
  rw [if_pos hkind, run_bind_apply, run_pure_apply]
  exact internedName_run_of_up hname hup

/-- The names of the methods that iterate pass theirs. -/
theorem isName_iteration (iteration : Iteration) :
    isName .method iteration.name ∧ isName .symbol iteration.name := by
  cases iteration <;> decide

/-- What is said where closures cannot be blocks. -/
def customBlockReason : String :=
  "a custom block callback is registered, host closures cannot be blocks"

/-- Up to the call of the method nothing happens but that the host gets to know its number; and the
method is called only where closures can be blocks. -/
theorem callWithBlock_run_of_up {method : String} (hmethod : isName .method method)
    (hsymbol : isName .symbol method) (receiver : Value) {args : List Value}
    (hargs : args.length < argumentLimit) (body : Closure σ) {w : World σ} (hup : w.state = .up) :
    (callWithBlock r receiver method args body).run w =
      match w.callback .block with
      | some .closures =>
        (guarded (callWithClosure r receiver (w.idOf method) args body)).run (w.knowing method)
      | _ =>
        .ok (.error (.refused (.badParameter customBlockReason)))
          ((w.knowing method).recorded (.badParameter customBlockReason)) := by
  have hknown : (w.knowing method).blockCallback = w.callback .block :=
    w.knowing_callback method .block
  have hcount : (checkCount args.length : Checked σ Unit).run (w.knowing method) =
      .ok (.ok ()) (w.knowing method) := by
    unfold checkCount
    rw [if_neg (Nat.not_le_of_lt hargs), run_pure_apply]
  unfold callWithBlock
  rw [run_bind_apply, checkedName_run_of_up hmethod hsymbol hup]
  simp only
  rw [run_bind_apply, hcount]
  simp only
  rw [run_get_bind_apply, hknown]
  cases w.callback .block with
  | none => rfl
  | some callback => cases callback <;> rfl

/-- With an interpreter that is up, a call with a block comes to the call of the method. -/
theorem settled_callWithBlock_of_up (iteration : Iteration) (receiver : Value) {args : List Value}
    (body : Closure σ) {w : World σ} (hup : w.state = .up) (hargs : args.length < argumentLimit)
    (hcallback : w.callback .block = some .closures) :
    settled r (callWithBlock r receiver iteration.name args body) w =
      settled r (guarded (callWithClosure r receiver (w.idOf iteration.name) args body))
        (w.knowing iteration.name) := by
  obtain ⟨hmethod, hsymbol⟩ := isName_iteration iteration
  rw [settled_apply, settled_apply, callWithBlock_run_of_up hmethod hsymbol receiver hargs body hup,
    hcallback]

/-- How a method that iterates ends, seen from where it was called with a block. -/
theorem callWithClosure_apply (receiver : Value) (id : SymbolId) (args : List Value)
    (body : Closure σ) (w : World σ) :
    callWithClosure r receiver id args body w =
      iterate w.iterating.machine.lastTarget
        (r.send { receiver, method := id, args,
                  block := .host (some body) w.iterating.machine.lastTarget }) w.iterating := rfl

/-- The method that is found for a call is run with it. -/
theorem send_of_method {fuel : Nat} {call : Call σ} {method : Method} {w : World σ}
    (h : w.machine.findMethod (w.machine.heap.classOf call.receiver) call.method = some method) :
    (Reentry.ofFuel (fuel + 1)).send call w = method.body (.ofFuel fuel) call w := by
  change dispatch (.ofFuel fuel) call w = _
  unfold dispatch
  rw [machine_bind_apply, h]
  cases method <;> rfl

/-- A method of the interpreter's own that is found is run, with one call less to go. -/
theorem send_of_findMethod {fuel : Nat} {call : Call σ} {b : Builtin} {w : World σ}
    (h : w.machine.findMethod (w.machine.heap.classOf call.receiver) call.method =
      some (.builtin b)) :
    (Reentry.ofFuel (fuel + 1)).send call w = b.run (.ofFuel fuel) call w :=
  send_of_method h

/-- An exception that comes out of a task is what the host is told of, if nothing has happened to
panics in it. -/
theorem settled_guarded_of_raised {α : Type} {P : Probe → Prop} {action : Eval σ α}
    {w w₁ : World σ} {exception : Value} (hfollows : Follows P action) (hhost : w.HostCode P)
    (horder : w.InOrder) (hparked : w.parked = none)
    (hrun : action w = .error (.jump (.raised exception)) w₁)
    (hpending : w₁.machine.errinfo = exception) (hlog : w₁.panicLog = w.panicLog)
    (hends : (report r exception).Terminates (w₁.restored w).withoutPending) :
    ∃ found w₂, settled r (guarded action) w = .ok (.error (.exception found)) w₂ ∧
      found.description = shownText r exception (w₁.restored w).withoutPending := by
  have hcourse := hfollows w hhost
  unfold FollowsAt at hcourse
  rw [hrun] at hcourse
  have hnone : (w₁.restored w).parked = none :=
    (hcourse.panicsLogged.parked_eq hlog).trans hparked
  obtain ⟨found, w₂, hsurface, hdescription⟩ :=
    exists_exception_of_surface (.raised exception) hnone hpending (hcourse.raised_ne_nil horder)
      hends
  refine ⟨found, w₂, ?_, hdescription⟩
  rw [settled_guarded_apply, hrun]
  simp only [map_eq_pure_bind, bind_apply, hsurface]
  rfl

/-- **Iterating with a block.**  Where `each`, `map` or `times` is called with a block of the
host's, the body runs on the items in order, each once, up to the first for which it ends with
something else than a value, and the iteration is over in the world that this has led to.  The
answer is the result of the method if there was no such end, nil or the value of a break, and the
error that describes the exception which the block has raised, or the type error that it got for
what is no exception. -/
theorem callWithBlock_iterates (iteration : Iteration) (fuel : Nat) (receiver : Value)
    (args : List Value) (body : Closure σ) {w start w' : World σ} {values : List Value}
    {left : Option BlockReturn}
    (hstart : start = (w.knowing iteration.name).iterating)
    (hup : w.state = .up)
    (hargs : args.length < argumentLimit)
    (hcallback : w.callback .block = some .closures)
    (horder : w.InOrder)
    (hparked : w.parked = none)
    (hmethod : start.machine.findMethod (start.machine.heap.classOf receiver)
      (w.idOf iteration.name) = some (.builtin iteration.builtin))
    (hrounds : (iteration.makes start.machine.heap receiver).length <
      (Reentry.ofFuel fuel : Reentry σ).rounds)
    (hkept : (Reentry.ofFuel fuel).KeptBetween start.machine.lastTarget body
      (iteration.makes start.machine.heap receiver) (iteration.Keeps start.machine.heap receiver)
      start)
    (hinvoke : (Reentry.ofFuel fuel).invokeAll start.machine.lastTarget body
      (iteration.makes start.machine.heap receiver) start = .ok (values, left) w')
    (hpanics : w'.panicLog = w.panicLog) :
    let r := Reentry.ofFuel (fuel + 1)
    let answer := settled r (callWithBlock r receiver iteration.name args body) w
    match left with
    | none => answer = (Except.ok <$> iteration.result receiver values) w'
    | some (.value _) => False
    | some .breakOff => answer = .ok (.ok Value.nil) (w'.restored start)
    | some (.breakValue v) => answer = .ok (.ok v) (w'.restored start)
    | some (.raise v) =>
      ∃ exception w₂, Leaves start.machine.lastTarget w' (.raise v) (.raised exception) w₂ ∧
        answer = (Except.error <$> surface r (.raised exception)) (w₂.restored start) ∧
        ((report r exception).Terminates (w₂.restored start).withoutPending →
          ∃ found w₃, answer = .ok (.error (.exception found)) w₃ ∧
            found.description = shownText r exception (w₂.restored start).withoutPending) := by
  intro r answer
  have hanswer : answer = settled r (guarded (callWithClosure r receiver (w.idOf iteration.name)
      args body)) (w.knowing iteration.name) :=
    settled_callWithBlock_of_up iteration receiver body hup hargs hcallback
  have hsame : start.callback .block = some .closures := by
    rw [hstart]
    exact (w.knowing_callback iteration.name .block).trans hcallback
  have hbuiltin := iteration.run_ends
    { receiver, method := w.idOf iteration.name, args,
      block := .host (some body) start.machine.lastTarget }
    (Reentry.follows_ofFuel AnyProbe fuel) rfl hsame hrounds hkept hinvoke
  rw [← send_of_findMethod hmethod] at hbuiltin
  cases left with
  | none =>
      have hsend : r.send _ start = iteration.result receiver values w' := hbuiltin
      obtain ⟨v, w₂, hresult⟩ : ∃ v w₂, iteration.result receiver values w' = .ok v w₂ := by
        cases iteration <;> exact ⟨_, _, rfl⟩
      rw [settled_guarded_apply, callWithClosure_apply, ← hstart,
        iterate_of_ok (hsend.trans hresult)] at hanswer
      simp only [map_eq_pure_bind, bind_apply, hresult]
      exact hanswer
  | some outcome =>
      obtain ⟨jump, w₂, hleaves, hsend⟩ := hbuiltin
      cases outcome with
      | value v => cases hleaves
      | breakOff | breakValue v =>
          cases hleaves
          rw [settled_guarded_apply, callWithClosure_apply, ← hstart, iterate_of_break hsend]
            at hanswer
          exact hanswer
      | raise v =>
          obtain ⟨rfl, hsameLog⟩ := hleaves.raised
          have hrun : callWithClosure r receiver (w.idOf iteration.name) args body
              (w.knowing iteration.name) = .error (.jump (.raised w₂.machine.errinfo)) w₂ := by
            rw [callWithClosure_apply, ← hstart]
            exact iterate_of_raised hsend
          have hrestored : w₂.restored (w.knowing iteration.name) = w₂.restored start := by
            rw [hstart]
            rfl
          refine ⟨w₂.machine.errinfo, w₂, hleaves, ?_, fun hends => ?_⟩
          · rw [hanswer, settled_guarded_apply, hrun]
            simp only [hrestored]
          obtain ⟨hknownParked, hknownLog⟩ := w.knowing_panics iteration.name
          have hfollows := follows_callWithClosure (Reentry.follows_ofFuel AnyProbe (fuel + 1))
            receiver (w.idOf iteration.name) args fun args => (body args).uses_anyProbe
          obtain ⟨found, w₃, hfound, hdescription⟩ :=
            settled_guarded_of_raised hfollows (World.hostCode_anyProbe _) (horder.knowing _)
              (hknownParked.trans hparked) hrun rfl
              (hsameLog.trans (hpanics.trans hknownLog.symm)) (hrestored ▸ hends)
          exact ⟨found, w₃, hanswer.trans hfound, hrestored ▸ hdescription⟩

/-- A world in which integers have the method `times` and blocks run the bodies they are given. -/
def counting : World Unit where
  machine := {
    heap := ⟨Machine.coreSlots⟩
    methods := ⟨[((CoreClass.integer.value, ⟨1⟩), .builtin .integerTimes)]⟩ }
  state := .up
  ids := ⟨[("times", ⟨1⟩)]⟩
  blockCallback := some .closures
  memory := ()

/-- A body that ends the iteration with its argument unless that is zero. -/
def untilNonzero : Closure Unit
  | [v] => .done (if v = Value.ofFixnum 0 then .value Value.nil else .breakValue v)
  | _ => .done .breakOff

/-- Of three times this body runs two, and the answer is one. -/
theorem callWithBlock_iterates_counting :
    ∃ w', settled (.ofFuel 6) (callWithBlock (.ofFuel 6) (Value.ofFixnum 3) "times" []
      untilNonzero) counting = .ok (.ok (Value.ofFixnum 1)) w' := by
  have horder : counting.InOrder := ⟨Machine.coreSlots_coreStanding, by simp [counting]⟩
  obtain ⟨w', hinvoke, hpanics⟩ : ∃ w', (Reentry.ofFuel 5).invokeAll 2 untilNonzero
      (Iteration.times.makes counting.machine.heap (Value.ofFixnum 3))
      (counting.knowing "times").iterating =
        .ok ([Value.nil], some (.breakValue (Value.ofFixnum 1))) w' ∧
      w'.panicLog = counting.panicLog := ⟨_, rfl, rfl⟩
  exact ⟨_, callWithBlock_iterates .times 5 (Value.ofFixnum 3) [] untilNonzero rfl rfl (by decide)
    rfl horder rfl rfl (by decide +kernel) (fun _ _ _ _ => trivial) hinvoke hpanics⟩

end Vm

end EmbeddedRuby
