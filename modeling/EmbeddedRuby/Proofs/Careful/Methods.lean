import EmbeddedRuby.Proofs.Careful.Callbacks

/-!
# Careful methods

The interpreter's own methods are careful: one lemma for each method that does more than compute a
value, and `Builtin.careful_run` for all of them together.
-/

namespace EmbeddedRuby

open Eval

variable {σ : Type} [Handled σ]

namespace Methods

variable {r : Reentry σ} {call : Call σ} {known : Nat}

/-! ### Objects, modules and classes -/

/-- A plain object is shown by its class and its number. -/
theorem careful_showPlain : Careful known (showPlain call) :=
  .look fun _ => .newText _

/-- Comparing two handles looks at nothing behind them. -/
theorem careful_isSame : Careful known (isSame call) :=
  (Careful.checkArity call 1 1).bind fun _ => .pure (within_ofBool _ _)

/-- Whether an object is of a class is read off the heap. -/
theorem careful_isA : Careful known (isA call) :=
  (Careful.checkArity call 1 1).bind fun _ => Careful.look fun _ =>
    .ite (.pure (within_ofBool _ _)) (.raise _)

/-- The path of a module is text. -/
theorem careful_pathOfModule : Careful known (pathOfModule call) := by
  refine Careful.look fun m => ?_
  split
  · exact .newText _
  · exact .pure (within_nil _)

/-- `!=` sends `==` and negates the answer. -/
theorem careful_notEqual (hr : r.Sound) (hcall : call.Honest known) :
    Careful known (notEqual r call) :=
  (Careful.checkArity call 1 1).bind fun _ =>
    (Careful.sendNamed hr hcall.receiver "==" hcall.args).bind fun _ => .pure (within_ofBool _ _)

/-- The name asked for is read from a known value. -/
theorem careful_respondTo (hr : r.Sound) (hcall : call.Honest known) :
    Careful known (respondTo r call) :=
  (Careful.checkArity call 1 2).bind fun _ => (Careful.nameOf hr (hcall.arg 0)).bind fun name =>
    (Careful.respondsTo _ name).bind fun _ => .pure (within_ofBool _ _)

/-- Each value is shown before its line is printed. -/
theorem careful_putsOne (hr : r.Sound) {v : Value} (hv : Within known v) :
    Careful known (putsOne r v) := by
  refine Careful.inside fun m hm hknown => ?_
  split
  · rename_i items hitems
    have hknownItems : Within m.heap.slots.size items :=
      hm.closed.body (Heap.body?_of_items? hitems)
    refine (Careful.mapM (fun _ _ _ hitem => .displayText hr hitem) hknownItems).bind fun texts => ?_
    exact .forM (fun text _ => .print (asLine text)) fun _ _ => trivial
  · exact (Careful.displayText hr (Handled.mono hknown hv)).bind fun text => .print (asLine text)

/-- The arguments are known, so each line is careful. -/
theorem careful_putsAll (hr : r.Sound) (hcall : call.Honest known) :
    Careful known (putsAll r call) := by
  have hrest : Careful known (do
      call.args.forM (putsOne r)
      return Value.nil : Eval σ Value) :=
    (Careful.forM (fun _ hv => careful_putsOne hr hv) hcall.args).bind fun _ => .pure (within_nil _)
  exact .ite ((Careful.print "\n").bind fun _ => hrest) hrest

/-- `p` answers with its arguments, which are known. -/
theorem careful_showAll (hr : r.Sound) (hcall : call.Honest known) :
    Careful known (showAll r call) := by
  have hargs := hcall.args
  have hline : ∀ v, Within known v →
      Careful known (do print ((← r.inspectText v) ++ "\n") : Eval σ Unit) := fun v hv =>
    (Careful.inspectText hr hv).bind fun _ => .print _
  unfold showAll
  refine (Careful.forM hline hargs).bind fun _ => ?_
  split
  · exact .pure (within_nil _)
  · rename_i v hone
    rw [hone] at hargs
    exact .pure (hargs v (.head []))
  · exact .newArray hargs

/-- The constants on the path are found one from the other. -/
theorem careful_constGet (hr : r.Sound) (hcall : call.Honest known) :
    Careful known (constGet r call) :=
  (Careful.checkArity call 1 2).bind fun _ => (Careful.nameOf hr (hcall.arg 0)).bind fun name =>
    .constantPath hr hcall.receiver (pathNames name)

/-- A class variable that is found is known. -/
theorem careful_classVariableGet (hr : r.Sound) (hcall : call.Honest known) :
    Careful known (classVariableGet r call) :=
  (Careful.checkArity call 1 1).bind fun _ => (Careful.nameOf hr (hcall.arg 0)).bind fun name =>
    (Careful.intern name).bind fun id => .classVar _ id

/-- The items of a new array are an argument, repeated. -/
theorem careful_newItems (hr : r.Sound) (hcall : call.Honest known) :
    Careful known (newItems r call) := by
  have hrest : ∀ size : Int, Careful known (do
      if arrayLimit ≤ size then crash "capacity overflow"
      return List.replicate size.toNat (call.arg 1) : Eval σ (List Value)) := by
    intro size
    have hitems : Within known (List.replicate size.toNat (call.arg 1)) := by
      intro v hv
      rw [List.eq_of_mem_replicate hv]
      exact hcall.arg 1
    exact .ite ((Careful.crash _).bind fun _ => .pure hitems) (.pure hitems)
  unfold newItems
  refine (Careful.checkArity call 0 2).bind fun _ => ?_
  split
  · rename_i size hsize
    exact (Careful.toLong hr (hcall.args size (List.mem_of_mem_head? hsize))).bind hrest
  · exact (Careful.pure (a := (0 : Int)) trivial).bind hrest

/-- A new object is made of contents that fit its class. -/
theorem ends_alloc {w : World σ} {cls : Value} {b : Body} (hw : w.Sound)
    (hfits : w.machine.heap.Fits cls b) (hcls : Within w.machine.heap.slots.size cls)
    (hb : Within w.machine.heap.slots.size b) :
    w.Ends ((onMachine fun m => m.alloc cls b : Eval σ Value) w) :=
  ⟨hw.tends (.act (.alloc hfits hcls hb)), w.machine.heap.knows_alloc cls b⟩

/-- `initialize` is sent to the new object, which is known by then. -/
theorem careful_newPlain (hr : r.Sound) (hcall : call.Honest known) {w : World σ} (hw : w.Sound)
    (hknown : known ≤ w.machine.heap.slots.size)
    (hkind : newKind? w.machine.heap call.receiver = none) : w.Ends (newPlain r call w) := by
  have hmade := ends_alloc hw (b := .plain) hkind (Handled.mono hknown hcall.receiver) trivial
  refine hmade.bind fun w₁ hpasses object hobject => ?_
  have hlater := Nat.le_trans hknown hpasses.size_le
  have hrest : Careful w₁.machine.heap.slots.size (do
      if ← respondsTo object "initialize" then
        let _ ← r.sendNamed object "initialize" call.args
      return object : Eval σ Value) :=
    (Careful.respondsTo object "initialize").bind fun _ =>
      .ite ((Careful.sendNamed hr hobject _ (Handled.mono hlater hcall.args)).bind fun _ =>
        .pure hobject) (.pure hobject)
  exact hrest w₁ hpasses.sound (Nat.le_refl _)

/-- An object of a kind is made: its class still gives the kind that it gave before. -/
theorem ends_newOfKind {w w₁ : World σ} {cls : Value} {b : Body} {kind : CoreClass}
    (hpasses : w.Passes w₁) (hkind : newKind? w.machine.heap cls = some kind)
    (hfits : newKind? w₁.machine.heap cls = some kind → w₁.machine.heap.Fits cls b)
    (hcls : Within w.machine.heap.slots.size cls) (hb : Within w₁.machine.heap.slots.size b) :
    w₁.Ends ((onMachine fun m => m.alloc cls b : Eval σ Value) w₁) :=
  ends_alloc hpasses.sound (hfits (hpasses.develops.evolves.newKind? hkind))
    (Handled.mono hpasses.size_le hcls) hb

/-- Whatever the kind of the class, the new object is made of known contents. -/
theorem careful_new (hr : r.Sound) (hcall : call.Honest known) : Careful known (new r call) := by
  intro w hw hknown
  have hnow := hcall.mono hknown
  have hcls := hnow.receiver
  unfold new
  rw [machine_bind_apply]
  cases hkind : newKind? w.machine.heap call.receiver with
  | none => exact careful_newPlain hr hcall hw hknown hkind
  | some kind =>
      cases kind with
      | array =>
          refine (careful_newItems hr hcall w hw hknown).bind fun w₁ hpasses items hitems => ?_
          exact ends_newOfKind hpasses hkind id hcls hitems
      | hash => exact ends_newOfKind hw.passes hkind (fun h => ⟨h, rfl⟩) hcls (within_of_eq_nil rfl)
      | string =>
          refine (Careful.checkArity call 0 1 w hw hknown).bind fun w₁ hpasses _ _ => ?_
          have htext : ∀ x : Eval σ String, Careful w₁.machine.heap.slots.size x →
              w₁.Ends ((x >>= fun text => onMachine fun m =>
                m.alloc call.receiver (.string (Utf8.encodeString text)) : Eval σ Value) w₁) := by
            intro x hx
            refine (hx w₁ hpasses.sound (Nat.le_refl _)).bind fun w₂ hlater text _ => ?_
            exact ends_newOfKind (hpasses.trans hlater) hkind id hcls trivial
          cases hfirst : call.args.head? with
          | none => exact htext _ (.pure trivial)
          | some v =>
              have hv := hnow.args v (List.mem_of_mem_head? hfirst)
              exact htext _ (.displayText hr (Handled.mono hpasses.size_le hv))
      | exception =>
          refine (Careful.checkArity call 0 1 w hw hknown).bind fun w₁ hpasses _ _ => ?_
          have hparts : Within w.machine.heap.slots.size (call.arg 0, Value.nil) :=
            ⟨hnow.arg 0, within_nil _⟩
          exact ends_newOfKind hpasses hkind id hcls (Handled.mono hpasses.size_le hparts)
      | classClass =>
          refine (Careful.checkArity call 0 1 w hw hknown).bind fun w₁ hpasses _ _ => ?_
          have hsuper : Within w₁.machine.heap.slots.size
              (some (call.args.head?.getD CoreClass.object.value)) := by
            rintro superclass ⟨⟩
            cases hfirst : call.args.head? with
            | none => exact hpasses.sound.machine.core.within .object
            | some v =>
                exact Handled.mono hpasses.size_le (hnow.args v (List.mem_of_mem_head? hfirst))
          exact Careful.newModule none hsuper w₁ hpasses.sound (Nat.le_refl _)
      | moduleClass => exact Careful.newModule none within_none w hw hknown
      | _ => exact (Careful.look fun m => .raise _) w hw hknown

/-! ### Numbers -/

/-- A number becomes an immediate value or a new object. -/
theorem careful_ofNumber (n : Number) : Careful known (ofNumber n : Eval σ Value) := by
  cases n with
  | int n => exact .newInteger n
  | float x => exact .newFloat x

/-- The operands are numbers, read off the heap. -/
theorem careful_operands : Careful known (operands call) := by
  refine (Careful.checkArity call 1 1).bind fun _ => Careful.look fun m => ?_
  split
  · exact .pure ⟨trivial, trivial⟩
  · exact .raise _

/-- The result of an operation is a new number. -/
theorem careful_arithmetic (op : Arithmetic) : Careful known (arithmetic op call) := by
  refine careful_operands.bind fun numbers => ?_
  split
  · refine .ite (.raise _) ?_
    split
    · exact careful_ofNumber _
    · exact .raise _
  · exact careful_ofNumber _

/-- A negated number is a new number. -/
theorem careful_negated : Careful known (negated call) := by
  refine Careful.look fun m => ?_
  split
  · exact .ite (.crash _) (careful_ofNumber _)
  · exact careful_ofNumber _
  · exact .pure (within_nil _)

/-- Equality of numbers answers with an immediate value. -/
theorem careful_numbersEqual : Careful known (numbersEqual call) := by
  refine (Careful.checkArity call 1 1).bind fun _ => Careful.look fun m => ?_
  dsimp only
  split <;> exact .pure (within_ofBool _ _)

/-- Comparing two numbers answers with an immediate value or refuses the operand. -/
theorem careful_comparison (hr : r.Sound) (hcall : call.Honest known) (accepts : Ordering → Bool) :
    Careful known (comparison r accepts call) := by
  refine (Careful.checkArity call 1 1).bind fun _ => Careful.look fun m => ?_
  dsimp only
  split
  · exact .pure (within_ofBool _ _)
  · exact (Careful.inspectText hr (hcall.arg 0)).bind fun _ => .raise _

/-- A number is written as a new text. -/
theorem careful_numberText : Careful known (numberText call) := by
  refine Careful.look fun m => ?_
  split <;> exact .newText _

/-- The Float of a number is new. -/
theorem careful_numberAsFloat : Careful known (numberAsFloat call) := by
  refine Careful.look fun m => ?_
  split <;> exact careful_ofNumber _

/-- Whether a number is zero is an immediate value. -/
theorem careful_isZero : Careful known (isZero call) :=
  .look fun _ => .pure (within_ofBool _ _)

/-- Each round of a count runs the block on its index, by induction on the rounds left. -/
theorem careful_timesFrom (hr : r.Sound) (count : Int) (rounds : Nat) (index : Int)
    (hcall : call.Honest known) : Careful known (timesFrom r call count rounds index) := by
  induction rounds generalizing index with
  | zero => exact .exhausted
  | succ rounds ih =>
      refine .ite ?_ (.pure hcall.receiver)
      refine (Careful.newInteger index).keep fun later hle current hcurrent => ?_
      have hargs : Within later [current] := within_cons hcurrent (within_of_eq_nil rfl)
      exact (Careful.yieldBlock hr (hcall.mono hle).block hargs).bind fun _ => (ih (index + 1)).mono hle

/-- Counting answers with its receiver. -/
theorem careful_times (hr : r.Sound) (hcall : call.Honest known) : Careful known (times r call) :=
  .look fun _ => careful_timesFrom hr _ _ 0 hcall

/-- Reading the receiver as a Float hands nothing out. -/
theorem careful_floatOf : Careful known (floatOf call) :=
  .look fun _ => .pure trivial

/-! ### Strings and symbols -/

/-- Reading the characters of a string hands nothing out. -/
theorem careful_charsOf (v : Value) : Careful known (charsOf v : Eval σ (List Char)) :=
  .look fun _ => .pure fun _ _ => trivial

/-- The joined string is new. -/
theorem careful_joinStrings : Careful known (joinStrings call) := by
  refine (Careful.checkArity call 1 1).bind fun _ => Careful.look fun m => ?_
  split
  · exact .newString _
  · exact .raise _

/-- Equality of strings answers with an immediate value. -/
theorem careful_stringsEqual : Careful known (stringsEqual call) := by
  refine (Careful.checkArity call 1 1).bind fun _ => Careful.look fun m => ?_
  dsimp only
  split <;> exact .pure (within_ofBool _ _)

/-- A symbol is an immediate value. -/
theorem careful_stringAsSymbol : Careful known (stringAsSymbol call) :=
  (Careful.textOf _).bind fun text => (Careful.intern text).bind fun _ =>
    .pure (within_ofSymbol _ _)

/-- The name of a symbol is text. -/
theorem careful_symbolName (v : Value) : Careful known (symbolName v : Eval σ String) := by
  unfold symbolName
  split
  · exact .look fun _ => .pure trivial
  · exact .pure trivial

/-! ### Arrays, hashes, procs and exceptions -/

/-- An item of an array is known where the array's world is sound. -/
theorem careful_item? (v : Value) (index : Nat) :
    Careful known (item? v index : Eval σ (Option Value)) := by
  refine .inside fun m hm _ => .pure ?_
  intro item hitem
  obtain ⟨items, hitems, hget⟩ := Option.bind_eq_some_iff.mp hitem
  exact hm.closed.body (Heap.body?_of_items? hitems) item (List.mem_of_getElem? hget)

/-- All items of an array are known where the array's world is sound. -/
theorem careful_itemsOf (v : Value) : Careful known (itemsOf v : Eval σ (List Value)) :=
  .inside fun _ hm _ => .pure (hm.closed.items v)

/-- The keys and values of a hash are known where the hash's world is sound. -/
theorem careful_pairsOf (v : Value) : Careful known (pairsOf v : Eval σ (List (Value × Value))) :=
  .inside fun _ hm _ => .pure (hm.closed.pairs v)

/-- Each round runs the block on an item that is there at that time, by induction on the rounds
left. -/
theorem careful_eachFrom (hr : r.Sound) (rounds index : Nat) {results : List Value}
    (hcall : call.Honest known) (hresults : Within known results) :
    Careful known (eachFrom r call rounds index results) := by
  induction rounds generalizing known index results with
  | zero => exact .exhausted
  | succ rounds ih =>
      refine (careful_item? _ index).keep fun later hle item? hitem => ?_
      split
      · exact .pure fun v hv => Handled.mono hle (hresults v (List.mem_reverse.mp hv))
      · rename_i item
        have hargs : Within later [item] := within_cons (hitem item rfl) (within_of_eq_nil rfl)
        refine (Careful.yieldBlock hr (hcall.mono hle).block hargs).keep fun last hlast result hresult => ?_
        have hlater := Nat.le_trans hle hlast
        exact ih (index + 1) (hcall.mono hlater) (within_cons hresult (Handled.mono hlater hresults))

/-- `each` answers with its receiver. -/
theorem careful_each (hr : r.Sound) (hcall : call.Honest known) : Careful known (each r call) :=
  (careful_eachFrom hr _ 0 hcall (within_of_eq_nil rfl)).bind fun _ => .pure hcall.receiver

/-- `map` collects what the block gives, which is known round by round. -/
theorem careful_map (hr : r.Sound) (hcall : call.Honest known) : Careful known (map r call) :=
  (careful_eachFrom hr _ 0 hcall (within_of_eq_nil rfl)).keep fun _ _ _ hresults => .newArray hresults

/-- The items that are pushed are arguments. -/
theorem careful_push (hcall : call.Honest known) : Careful known (push call) := by
  refine Careful.bind (.changeMachine fun m _ hknown => ?_) fun _ => .pure hcall.receiver
  exact .act (.pushItems call.receiver (Handled.mono hknown hcall.args))

/-- The last item is known, or there is none. -/
theorem careful_last : Careful known (last call) := by
  refine (careful_itemsOf _).keep fun later _ items hitems => .pure ?_
  cases hlast : items.getLast? with
  | none => exact within_nil _
  | some item => exact hitems item (List.mem_of_getLast? hlast)

/-- An item picked from known ones is known, as is the `nil` in its place. -/
theorem within_itemAt {items : List Value} (hitems : Within known items) (index : Int) :
    Within known (itemAt items index) := by
  have hget : ∀ place : Nat, Within known ((items[place]?).getD Value.nil) := by
    intro place
    cases hitem : items[place]? with
    | none => exact within_nil _
    | some item => exact hitems item (List.mem_of_getElem? hitem)
  unfold itemAt
  generalize (if index < 0 then (items.length : Int) + index else index) = place
  dsimp only
  split
  · exact within_nil _
  · exact hget _

/-- The index is read as a number before the item is picked. -/
theorem careful_itemAtArg (hr : r.Sound) (hcall : call.Honest known) :
    Careful known (itemAtArg r call) :=
  (Careful.checkArity call 1 1).bind fun _ => (Careful.toLong hr (hcall.arg 0)).bind fun index =>
    (careful_itemsOf _).keep fun _ _ _ hitems => .pure (within_itemAt hitems index)

/-- Joining goes down into the arrays among the items, by induction on the depth that is left. -/
theorem careful_joinItems (hr : r.Sound) (separator : String) (depth : Nat) {array : Value}
    (harray : Within known array) : Careful known (joinItems r separator depth array) := by
  induction depth generalizing known array with
  | zero => exact .exhausted
  | succ depth ih =>
      refine (careful_itemsOf array).keep fun later _ items hitems => ?_
      refine (Careful.mapM (fun last _ item hitem => ?_) hitems).bind fun texts => .pure trivial
      exact .look fun m => .ite (ih hitem) (.displayText hr hitem)

/-- The separator is read off a known value. -/
theorem careful_join (hr : r.Sound) (hcall : call.Honest known) : Careful known (join r call) := by
  have hrest : ∀ separator, Careful known (do
      newText (← joinItems r separator r.rounds call.receiver) : Eval σ Value) := fun separator =>
    (careful_joinItems hr separator _ hcall.receiver).bind fun text => .newText text
  unfold join
  refine (Careful.checkArity call 0 1).bind fun _ => ?_
  split
  · rename_i separator hseparator
    have hknown := hcall.args separator (List.mem_of_mem_head? hseparator)
    exact (Careful.displayText hr hknown).bind hrest
  · exact (Careful.pure (a := "") trivial).bind hrest

/-- An array is shown item by item. -/
theorem careful_showArray (hr : r.Sound) : Careful known (showArray r call) := by
  refine (careful_itemsOf _).keep fun later _ items hitems => ?_
  exact (Careful.mapM (fun _ _ _ hitem => .inspectText hr hitem) hitems).bind fun _ => .newText _

/-- The value for a key is known where the hash's world is sound. -/
theorem careful_hashGet : Careful known (hashGet call) := by
  refine (Careful.checkArity call 1 1).bind fun _ => .inside fun m hm _ => .pure ?_
  unfold Machine.lookUpInHash
  cases hfound : ((m.heap.pairs? call.receiver).getD []).find? fun pair =>
      m.sameKey pair.1 (call.arg 0) with
  | none => exact within_nil _
  | some pair => exact (hm.closed.pairs call.receiver pair (List.mem_of_find?_eq_some hfound)).2

/-- The pair that is stored is made of arguments. -/
theorem careful_hashSet (hcall : call.Honest known) : Careful known (hashSet call) :=
  (Careful.checkArity call 2 2).bind fun _ =>
    (Careful.storeInHash _ (hcall.arg 0) (hcall.arg 1)).bind fun _ => .pure (hcall.arg 1)

/-- The keys of a hash are known, and their array is new. -/
theorem careful_hashKeys : Careful known (hashKeys call) := by
  refine (careful_pairsOf _).keep fun later _ pairs hpairs => .newArray fun key hkey => ?_
  obtain ⟨pair, hpair, rfl⟩ := List.mem_map.mp hkey
  exact (hpairs pair hpair).1

/-- A pair is shown by its key and its value. -/
theorem careful_showPair (hr : r.Sound) {pair : Value × Value} (hpair : Within known pair) :
    Careful known (showPair r pair) := by
  have harrow : ∀ value : String, Careful known (do
      return (← r.inspectText pair.1) ++ " => " ++ value : Eval σ String) := fun value =>
    (Careful.inspectText hr hpair.1).bind fun _ => .pure trivial
  refine (Careful.inspectText hr hpair.2).bind fun value => Careful.look fun m => ?_
  dsimp only
  split
  · exact .ite (.pure trivial) (harrow value)
  · exact harrow value

/-- A hash is shown pair by pair. -/
theorem careful_showHash (hr : r.Sound) : Careful known (showHash r call) := by
  refine (careful_pairsOf _).keep fun later _ pairs hpairs => ?_
  exact (Careful.mapM (fun _ _ _ hpair => careful_showPair hr hpair) hpairs).bind fun _ => .newText _

/-- Calling a proc by its method calls a known proc. -/
theorem careful_callReceiver (hr : r.Sound) (hcall : call.Honest known) :
    Careful known (callReceiver r call) := by
  have hblock := hcall.block
  unfold callReceiver
  refine .callProc hr call.receiver hcall.args none ?_
  split
  · rename_i proc target hproc
    rw [hproc] at hblock
    exact hblock
  · exact within_nil _

/-- An exception's text is its message or the name of its class. -/
theorem careful_exceptionText (hr : r.Sound) : Careful known (exceptionText r call) := by
  refine Careful.inside fun m hm _ => ?_
  have hmessage := (hm.closed.exceptionParts call.receiver).1
  exact .ite (.newText _) (.ite (.pure hmessage) (.sendNamed hr hmessage "to_s" (within_of_eq_nil rfl)))

/-- An exception is shown by its class and its text. -/
theorem careful_showException (hr : r.Sound) (hcall : call.Honest known) :
    Careful known (showException r call) :=
  .look fun _ => (Careful.sendNamed hr hcall.receiver "to_s" (within_of_eq_nil rfl)).bind fun text =>
    (Careful.textOf text).bind fun _ => .ite (.newText _) (.newText _)

end Methods

/-! ### All of them -/

namespace Builtin

open Methods

variable {r : Reentry σ}

/-- The class of a known object is known. -/
theorem within_classOf {m : Machine} (hm : m.Sound) (v : Value) :
    Within m.heap.slots.size (m.heap.classOf v) := by
  unfold Heap.classOf
  split
  · exact hm.core.within _
  · exact hm.core.within _
  · exact hm.core.within _
  · exact hm.core.within _
  · exact hm.core.within _
  · cases hslot : m.heap.slot? v with
    | none => exact hm.core.within _
    | some slot => exact (hm.closed.slot hslot).1

/-- All of the interpreter's own methods are careful, one case for each. -/
theorem careful_run (hr : r.Sound) (b : Builtin) {call : Call σ} {known : Nat}
    (hcall : call.Honest known) : Careful known (b.run r call) := by
  cases b with
  | objectIsNil | nilIsNil | procIsLambda => exact .pure (within_ofBool _ _)
  | nilToI => exact .pure (within_ofFixnum _ _)
  | integerToI | stringToS | symbolToSym | procToProc => exact .pure hcall.receiver
  | nilToS | nilInspect | trueToS | falseToS => exact .newText _
  | objectClass => exact .inside fun m hm _ => .pure (within_classOf hm _)
  | objectInspect => exact careful_showPlain
  | objectEqual => exact careful_isSame
  | objectNotEqual => exact careful_notEqual hr hcall
  | objectIsA => exact careful_isA
  | objectRespondTo => exact careful_respondTo hr hcall
  | puts => exact careful_putsAll hr hcall
  | p => exact careful_showAll hr hcall
  | moduleName => exact careful_pathOfModule
  | moduleToS => exact .look fun _ => .newText _
  | moduleCaseEqual =>
      exact (Careful.checkArity call 1 1).bind fun _ => .look fun _ => .pure (within_ofBool _ _)
  | moduleConstGet => exact careful_constGet hr hcall
  | moduleClassVariableGet => exact careful_classVariableGet hr hcall
  | classNew => exact careful_new hr hcall
  | classSuperclass =>
      refine .inside fun m hm _ => .pure ?_
      cases hsuper : (m.heap.module? call.receiver).bind ModuleData.superclass with
      | none => exact within_nil _
      | some superclass =>
          obtain ⟨data, hdata, hparent⟩ := Option.bind_eq_some_iff.mp hsuper
          exact hm.closed.superclass hdata superclass hparent
  | nilToA => exact .newArray (within_of_eq_nil rfl)
  | nilToF => exact careful_ofNumber (.float (Double.zero false))
  | add | sub | mul | div | mod => exact careful_arithmetic _
  | negate => exact careful_negated
  | numberEqual => exact careful_numbersEqual
  | less | greater | lessEqual | greaterEqual => exact careful_comparison hr hcall _
  | numberToS => exact careful_numberText
  | numberToF => exact careful_numberAsFloat
  | numberIsZero => exact careful_isZero
  | integerTimes => exact careful_times hr hcall
  | floatToI => exact careful_floatOf.bind fun x => .integerPart x
  | floatIsNan => exact careful_floatOf.bind fun _ => .pure (within_ofBool _ _)
  | stringInspect => exact (careful_charsOf _).bind fun _ => .newText _
  | stringLength | stringToI => exact (careful_charsOf _).bind fun _ => .newInteger _
  | stringPlus => exact careful_joinStrings
  | stringEqual => exact careful_stringsEqual
  | stringToF => exact (careful_charsOf _).bind fun _ => .newFloat _
  | stringToSym => exact careful_stringAsSymbol
  | symbolToS | symbolInspect => exact (careful_symbolName _).bind fun _ => .newText _
  | arrayEach => exact careful_each hr hcall
  | arrayMap => exact careful_map hr hcall
  | arrayPush => exact careful_push hcall
  | arrayLength => exact (careful_itemsOf _).bind fun _ => .pure (within_ofFixnum _ _)
  | arrayLast => exact careful_last
  | arrayFirst =>
      refine (careful_item? _ 0).keep fun later _ item hitem => .pure ?_
      cases item with
      | none => exact within_nil _
      | some item => exact hitem item rfl
  | arrayAt => exact careful_itemAtArg hr hcall
  | arrayJoin => exact careful_join hr hcall
  | arrayInspect => exact careful_showArray hr
  | hashGet => exact careful_hashGet
  | hashSet => exact careful_hashSet hcall
  | hashLength => exact (careful_pairsOf _).bind fun _ => .pure (within_ofFixnum _ _)
  | hashKeys => exact careful_hashKeys
  | hashInspect => exact careful_showHash hr
  | procCall => exact careful_callReceiver hr hcall
  | exceptionMessage => exact .sendNamed hr hcall.receiver "to_s" (within_of_eq_nil rfl)
  | exceptionToS => exact careful_exceptionText hr
  | exceptionInspect => exact careful_showException hr hcall
  | exceptionBacktrace =>
      exact .inside fun m hm _ => .pure (hm.closed.exceptionParts call.receiver).2

end Builtin

end EmbeddedRuby
