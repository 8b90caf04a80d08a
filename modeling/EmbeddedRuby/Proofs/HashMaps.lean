import EmbeddedRuby.Proofs.Careful.Programs
import EmbeddedRuby.Proofs.NamedModules
import EmbeddedRuby.Proofs.Outcomes

/-!
# Hashes as maps

A world **arises** (`World.Arises`) if honest programs lead to it out of a fresh interpreter.  Nothing in
such a world is made up (`World.Arises.sound`): there is nothing to make up in a fresh interpreter, and
honest programs are careful.  Its objects develop from the core classes, among which there is no hash,
and so no hash ever holds two keys that are the same.

The main statement is `World.hashes_map_keys`: at every moment on the way hashes are finite maps, with
their keys in the order in which they came, and storing in what is no hash raises an exception and
leaves all objects as they are.
-/

namespace EmbeddedRuby

open Eval

/-! ### A fresh interpreter -/

namespace Machine

variable {m : Machine} {v : Value} {slot : Slot}

/-- The objects of a fresh interpreter are the core classes. -/
theorem coreSlots_slot? (hslot : Heap.slot? ⟨coreSlots⟩ v = some slot) :
    ∃ kind core : CoreClass, slot = ⟨kind.value, .ofModule
      { name := some core.name, isClass := core != .kernel
        superclass := core.superclass?.map CoreClass.value }⟩ := by
  obtain ⟨place, -, hget⟩ := Option.bind_eq_some_iff.mp hslot
  obtain ⟨core, -, rfl⟩ := exists_core_of_getElem? hget
  exact ⟨_, core, rfl⟩

/-- The core classes refer to one another only. -/
theorem coreSlots_closed : Heap.Closed ⟨coreSlots⟩ := by
  intro v slot hslot
  obtain ⟨kind, core, rfl⟩ := coreSlots_slot? hslot
  refine ⟨coreSlots_coreStanding.within kind, ?_, within_of_eq_nil rfl, within_of_eq_nil rfl⟩
  intro parent hparent
  obtain ⟨above, -, rfl⟩ := Option.map_eq_some_iff.mp hparent
  exact coreSlots_coreStanding.within above

/-- There is no hash among them. -/
theorem coreSlots_uniqueKeys : Heap.UniqueKeys ⟨coreSlots⟩ := by
  intro hash pairs hpairs
  obtain ⟨slot, hslot, hbody⟩ := Option.map_eq_some_iff.mp (Heap.body?_of_pairs? hpairs)
  obtain ⟨kind, core, rfl⟩ := coreSlots_slot? hslot
  cases hbody

/-- Giving the core classes their constants is a development. -/
theorem develops_nameCoreClasses (hcore : m.heap.CoreStanding) (classes : List CoreClass) :
    m.heap.Develops (classes.foldl nameCoreClass m).heap := by
  induction classes generalizing m with
  | nil => exact .refl m.heap
  | cons c rest ih =>
      have hnamed : m.heap.Develops (m.nameCoreClass c).heap :=
        .act (.setConstant CoreClass.object.value _ (hcore.within c))
      exact hnamed.trans (ih (hcore.of_evolves hnamed.evolves))

/-- A fresh interpreter develops from the core classes. -/
theorem boot_develops : Heap.Develops ⟨coreSlots⟩ boot.heap := by
  rw [boot_heap]
  exact develops_nameCoreClasses (m := { heap := ⟨coreSlots⟩ }) coreSlots_coreStanding CoreClass.all

/-- The hashes of a fresh interpreter, of which there are none, have no two keys that are the same.
-/
theorem boot_uniqueKeys : boot.heap.UniqueKeys :=
  boot_develops.uniqueKeys coreSlots_closed coreSlots_uniqueKeys

/-- Nothing in a fresh interpreter is made up. -/
theorem boot_sound : boot.Sound where
  closed := boot_develops.closed coreSlots_closed
  core := boot_coreStanding
  pending := by
    obtain ⟨heap, symbols, methods, heq, -⟩ := boot_frame
    rw [heq]
    exact within_nil _
  routines hbody := by
    obtain ⟨entry, -, -, hbuiltin⟩ := boot_onlyOwn _ _ _ hbody
    cases hbuiltin

end Machine

/-! ### Where honest programs lead -/

section Worlds

variable {σ : Type} [Handled σ] {w : World σ}

namespace World

/-- The interpreter has not run yet, and the host has handed nothing over. -/
structure Untouched (w : World σ) : Prop where
  heap : w.machine.heap = Machine.boot.heap
  errinfo : w.machine.errinfo = Machine.boot.errinfo
  methods : w.machine.methods = Machine.boot.methods
  memory : Within Machine.boot.heap.slots.size w.memory
  procs : w.procs = #[]
  callbacks : ∀ kind, w.callback kind = none

/-- Honest programs lead to the world out of a fresh interpreter. -/
inductive Arises : World σ → Prop
  | fresh {w : World σ} (hw : w.Untouched) : Arises w
  | run {w : World σ} (hw : w.Arises) (fuel : Nat) {role : Role} {program : Program σ role}
      (hprogram : program.Honest w.machine.heap.slots.size) :
      Arises (Outcome.world (program.run (.ofFuel fuel) w))

/-- A world without anything of the host's is one of them. -/
theorem arises_fresh : ({ memory := () } : World Unit).Arises :=
  .fresh ⟨rfl, rfl, rfl, trivial, rfl, fun kind => by cases kind <;> rfl⟩

/-- An untouched world has the objects of a fresh interpreter. -/
theorem Untouched.develops (hw : w.Untouched) : Machine.boot.heap.Develops w.machine.heap := by
  rw [hw.heap]
  exact .refl _

/-- So nothing in it is made up. -/
theorem Untouched.sound (hw : w.Untouched) : w.Sound where
  machine := Machine.boot_sound.tends ⟨hw.develops, hw.errinfo, hw.methods⟩
  memory := by
    rw [hw.heap]
    exact hw.memory
  bodies hbody := by
    rw [hw.procs] at hbody
    cases hbody
  callbacks hrun := by
    rw [hw.callbacks] at hrun
    cases hrun

/-- A careful run takes its world on, however it ends. -/
theorem Ends.passes {α : Type} [Handled α] {outcome : Eval.Outcome σ α} (hends : w.Ends outcome) :
    w.Passes (Outcome.world outcome) := by
  cases outcome with
  | ok | error => exact hends.1

/-- An honest program makes nothing up. -/
theorem Sound.run (hw : w.Sound) (fuel : Nat) {role : Role} {program : Program σ role}
    (hprogram : program.Honest w.machine.heap.slots.size) :
    w.Passes (Outcome.world (program.run (.ofFuel fuel) w)) :=
  (Program.careful_run (Reentry.sound_ofFuel fuel) hprogram w hw (Nat.le_refl _)).passes

namespace Arises

/-- Nothing is made up in a world that honest programs lead to. -/
theorem sound (hw : w.Arises) : w.Sound := by
  induction hw with
  | fresh hw => exact hw.sound
  | run _ fuel hprogram ih => exact (ih.run fuel hprogram).sound

/-- Its objects develop from those of a fresh interpreter. -/
theorem develops (hw : w.Arises) : Machine.boot.heap.Develops w.machine.heap := by
  induction hw with
  | fresh hw => exact hw.develops
  | run hw fuel hprogram ih => exact ih.trans (hw.sound.run fuel hprogram).develops

end Arises

end World

end Worlds

/-! ### What is done with a hash -/

section Stores

variable {σ : Type} {u u' : World σ} {call : Call σ} {hash key value : Value}
  {pairs : List (Value × Value)}

/-- What has the type of a hash has pairs. -/
theorem Heap.exists_pairs?_of_typeOf {h : Heap} (hkind : h.typeOf hash = .hash) :
    ∃ pairs, h.pairs? hash = some pairs := by
  obtain ⟨b, hbody, htype⟩ := Heap.exists_body?_of_typeOf hkind (by decide)
  cases b with
  | hash pairs => exact ⟨pairs, Heap.pairs?_of_body? hbody⟩
  | float | bignum | string | array | ofModule | exception | plain | proc => cases htype

/-- No two keys of a hash are the same. -/
theorem Heap.UniqueKeys.distinct {m : Machine} (hunique : m.heap.UniqueKeys)
    (hpairs : m.heap.pairs? hash = some pairs) : m.DistinctKeys pairs :=
  (hunique hash pairs hpairs).imp fun hforms => Machine.sameKey_eq_false_iff.mpr hforms

/-- Keys that are known stay the same, or different. -/
theorem Heap.Evolves.sameKey {m later : Machine} (hevolves : m.heap.Evolves later.heap) {a b : Value}
    (ha : m.heap.Knows a) (hb : m.heap.Knows b) : later.sameKey a b = m.sameKey a b := by
  rw [Machine.sameKey_eq, Machine.sameKey_eq, hevolves.keyForm ha, hevolves.keyForm hb]

namespace World

/-- What the methods of a hash with these pairs tell. -/
structure Tells (u : World σ) (hash : Value) (pairs : List (Value × Value)) : Prop where
  get : ∀ (r : Reentry σ) (call : Call σ) key, call.receiver = hash → call.args = [key] →
    Builtin.hashGet.run r call u = .ok ((u.machine.lookUpInHash hash key).getD Value.nil) u
  length : ∀ (r : Reentry σ) (call : Call σ), call.receiver = hash →
    Builtin.hashLength.run r call u = .ok (Value.ofFixnum pairs.length) u
  keys : ∀ (r : Reentry σ) (call : Call σ), call.receiver = hash →
    Builtin.hashKeys.run r call u = Eval.onMachine (fun m => m.newArray (pairs.map Prod.fst)) u

/-- The methods of a hash look at its pairs and at nothing else. -/
theorem tells (hpairs : u.machine.heap.pairs? hash = some pairs) : u.Tells hash pairs where
  get r call key hreceiver hargs := by
    have hcount : call.args.length = 1 := congrArg List.length hargs
    have hkey : call.arg 0 = key := Call.arg_of_args hargs 0
    unfold Builtin.run Methods.hashGet
    dsimp only
    rw [checkArity_bind_apply (Nat.le_of_eq hcount.symm) (Nat.le_of_eq hcount), hkey, hreceiver]
    rfl
  length r call hreceiver := by
    unfold Builtin.run Methods.hashLength Methods.pairsOf
    dsimp only
    rw [bind_apply, machine_bind_apply, hreceiver, hpairs]
    rfl
  keys r call hreceiver := by
    unfold Builtin.run Methods.hashKeys Methods.pairsOf
    dsimp only
    rw [bind_apply, machine_bind_apply, hreceiver, hpairs]
    rfl

/-- In the second world the value is stored in the hash under the key, and nothing else is different. -/
structure Stores (u u' : World σ) (hash key value : Value) : Prop where
  /-- Under the same key there is the value, under others what was there before. -/
  lookUp : ∀ other, u'.machine.lookUpInHash hash other =
    if u.machine.sameKey key other = true then some value else u.machine.lookUpInHash hash other
  /-- The keys are what they were, in their order; a new key comes at the end. -/
  keys : ∀ pairs, u.machine.heap.pairs? hash = some pairs → ∃ stored,
    u'.machine.heap.pairs? hash = some stored ∧ u'.Tells hash stored ∧
    stored.length = pairs.length + (if u.machine.holdsKey key pairs = true then 0 else 1) ∧
    stored.map Prod.fst =
      if u.machine.holdsKey key pairs = true then pairs.map Prod.fst
      else pairs.map Prod.fst ++ [key]
  /-- The hash is still of its class. -/
  cls : (u'.machine.heap.slot? hash).map Slot.cls = (u.machine.heap.slot? hash).map Slot.cls
  /-- Other objects are what they were. -/
  others : ∀ other, other ≠ hash → u'.machine.heap.slot? other = u.machine.heap.slot? other
  /-- There are no new objects. -/
  size : u'.machine.heap.slots.size = u.machine.heap.slots.size
  /-- Only the objects are concerned. -/
  frame : u' = { u with machine := { u.machine with heap := u'.machine.heap } }

/-- Storing in a hash does what is said of it. -/
theorem stores_storeInHash (hpairs : u.machine.heap.pairs? hash = some pairs) (key value : Value) :
    u.Stores (u.onMachine fun m => m.storeInHash hash key value) hash key value where
  lookUp other := Machine.lookUp_storeInHash hpairs key value other
  keys old hold := by
    obtain rfl : pairs = old := Option.some.inj (hpairs.symm.trans hold)
    have hstored := Machine.pairs?_storeInHash hpairs key value
    exact ⟨_, hstored, tells hstored, u.machine.length_storePair key value pairs,
      u.machine.keys_storePair key value pairs⟩
  cls := by
    obtain ⟨slot, hslot, -⟩ := Option.map_eq_some_iff.mp (Heap.body?_of_pairs? hpairs)
    have heq := Machine.storeInHash_eq hpairs key value
    show ((u.machine.storeInHash hash key value).heap.slot? hash).map Slot.cls = _
    rw [heq]
    dsimp only
    rw [Heap.slot?_setBody_self hslot, hslot]
    rfl
  others other hother := Machine.slot?_storeInHash hpairs key value hother
  size := by
    have heq := Machine.storeInHash_eq hpairs key value
    exact (congrArg (fun m : Machine => m.heap.slots.size) heq).trans (Heap.size_setBody _ _ _)
  frame := by
    have heq := Machine.storeInHash_eq hpairs key value
    unfold World.onMachine
    dsimp only
    rw [heq]

/-- The run raises an exception, which is a `TypeError` if there is room for it, and all objects that
there were stay what they are. -/
structure Refuses {α : Type} (u : World σ) (action : Eval σ α) : Prop where
  raises : ∃ exception u', action u = .error (.jump (.raised exception)) u' ∧
    u.machine.heap.KeepsSlots u'.machine.heap
  typeError : u.RoomToRaise → action.Raises u .typeError

/-- Raising for a fault whose class is `TypeError` is a refusal. -/
theorem refuses_raise {α : Type} (fault : Fault) (hfault : fault.cls = .typeError) :
    u.Refuses (raise fault : Eval σ α) where
  raises := ⟨_, _, rfl, u.machine.newException_keepsSlots fault⟩
  typeError hroom := hfault ▸ raises_raise hroom fault

/-- What does the same as a refusal is one. -/
theorem Refuses.congr {α : Type} {action other : Eval σ α} (hother : u.Refuses other)
    (heq : action u = other u) : u.Refuses action where
  raises := by
    rw [heq]
    exact hother.raises
  typeError hroom := by
    unfold Raises
    rw [heq]
    exact hother.typeError hroom

/-- What is refused in its first part is refused. -/
theorem Refuses.bind {α β : Type} {action : Eval σ α} (haction : u.Refuses action) (f : α → Eval σ β) :
    u.Refuses (action >>= f) where
  raises := by
    obtain ⟨exception, u', hrun, hkeeps⟩ := haction.raises
    exact ⟨exception, u', by rw [bind_apply, hrun], hkeeps⟩
  typeError hroom := by
    obtain ⟨exception, u', hrun, hcls⟩ := haction.typeError hroom
    exact ⟨exception, u', by rw [bind_apply, hrun], hcls⟩

/-- Nothing is stored in what is no hash. -/
theorem refuses_storeInHash (hkind : u.machine.heap.typeOf hash ≠ .hash) (key value : Value) :
    u.Refuses (storeInHash hash key value) := by
  refine (refuses_raise (.hashExpected (u.machine.className hash)) rfl).congr ?_
  unfold Eval.storeInHash
  rw [machine_bind_apply, if_neg hkind]

/-- The method by which a program stores refuses this too. -/
theorem refuses_hashSet (hkind : u.machine.heap.typeOf call.receiver ≠ .hash) (r : Reentry σ)
    (hargs : call.args = [key, value]) : u.Refuses (Builtin.hashSet.run r call) :=
  ((refuses_storeInHash hkind key value).bind _).congr (hashSet_run_apply r hargs u)

end World

end Stores

/-! ### Hashes are maps -/

namespace World

variable {σ : Type} [Handled σ] {w u : World σ}

/-- **Hashes are finite maps with their keys in order**, at every moment of what honest programs do,
one after another, out of a fresh interpreter.  Such programs make up no handles, so a run takes the
objects from where they are to where it leaves them by the interpreter's own acts alone; the statement
is about all moments between such acts.

Keys are the same if they are one object, strings of the same bytes or integers of the same number;
this is an equivalence, and it stays as it is for keys that are known.  No two keys of a hash are the
same.  Storing in a hash, by its method or by the host, puts the value under the key and leaves
everything else as it is; the hash has one more key, at the end, just in case it had none that is the
same.  Storing in what is no hash raises a `TypeError` and changes no object. -/
theorem hashes_map_keys (harises : w.Arises)
    (hmoment : w.machine.heap.Develops u.machine.heap) :
    (∀ fuel role (program : Program σ role), program.Honest w.machine.heap.slots.size →
      w.machine.heap.Develops (Outcome.world (program.run (.ofFuel fuel) w)).machine.heap) ∧
    (Equivalence fun a b => u.machine.sameKey a b = true) ∧
    (∀ a b,
      (u.machine.sameKey a b = true ↔ a = b ∨
        (∃ bytes, u.machine.heap.bytes? a = some bytes ∧ u.machine.heap.bytes? b = some bytes) ∨
        ∃ n, u.machine.heap.int? a = some n ∧ u.machine.heap.int? b = some n) ∧
      (u.machine.heap.Knows a → u.machine.heap.Knows b → ∀ later : Machine,
        u.machine.heap.Develops later.heap → later.sameKey a b = u.machine.sameKey a b)) ∧
    (∀ hash pairs, u.machine.heap.pairs? hash = some pairs →
      u.machine.DistinctKeys pairs ∧ (∀ pair ∈ pairs, u.machine.heap.Knows pair.1) ∧
        u.Tells hash pairs) ∧
    ∀ (r : Reentry σ) (call : Call σ) key value, call.args = [key, value] →
      (u.machine.heap.typeOf call.receiver = .hash → ∃ u' : World σ,
        Builtin.hashSet.run r call u = .ok value u' ∧
        perform r (.storeInHash call.receiver key value) u = .ok () u' ∧
        u.Stores u' call.receiver key value ∧
        (u.machine.heap.Knows key → u.machine.heap.Knows value →
          u.machine.heap.Develops u'.machine.heap)) ∧
      (u.machine.heap.typeOf call.receiver ≠ .hash →
        u.Refuses (Builtin.hashSet.run r call) ∧
        u.Refuses (perform r (.storeInHash call.receiver key value))) := by
  have hfrom : Machine.boot.heap.Develops u.machine.heap := harises.develops.trans hmoment
  have hclosed : u.machine.heap.Closed := hfrom.closed Machine.boot_sound.closed
  have hunique : u.machine.heap.UniqueKeys :=
    hfrom.uniqueKeys Machine.boot_sound.closed Machine.boot_uniqueKeys
  refine ⟨fun fuel role program hprogram => (harises.sound.run fuel hprogram).develops,
    u.machine.sameKey_equivalence, fun a b => ⟨Machine.sameKey_iff_cases, ?_⟩, ?_,
    fun r call key value hargs => ⟨fun hkind => ?_, fun hkind => ?_⟩⟩
  · intro ha hb later hdevelops
    exact hdevelops.evolves.sameKey ha hb
  · intro hash pairs hpairs
    have hknown : Within u.machine.heap.slots.size pairs := hclosed.body (Heap.body?_of_pairs? hpairs)
    exact ⟨hunique.distinct hpairs, fun pair hpair => (hknown pair hpair).1, tells hpairs⟩
  · obtain ⟨pairs, hpairs⟩ := Heap.exists_pairs?_of_typeOf hkind
    refine ⟨u.onMachine fun m => m.storeInHash call.receiver key value, hashSet_apply r hpairs hargs,
      storeInHash_apply hpairs key value, stores_storeInHash hpairs key value, ?_⟩
    intro hkey hvalue
    exact .act (.storeInHash call.receiver hkey hvalue)
  · exact ⟨refuses_hashSet hkind r hargs, refuses_storeInHash hkind key value⟩

/-- In a fresh interpreter an honest program makes a hash with one key. -/
theorem exists_hash_made (key : Value) (hkey : key.slot? = none) :
    ∃ (program : Program Unit .main) (u : World Unit) (hash : Value),
      ({ memory := () } : World Unit).Arises ∧ program.Honest Machine.boot.heap.slots.size ∧
      u = Outcome.world (program.run (.ofFuel 0) { memory := () }) ∧
      u.machine.heap.pairs? hash = some [(key, Value.nil)] ∧ u.RoomToRaise := by
  obtain ⟨w, hfresh, hboot⟩ :
      ∃ w : World Unit, w = { memory := () } ∧ w.machine = Machine.boot := ⟨_, rfl, rfl⟩
  have huntouched : w.Untouched := by
    subst hfresh
    exact ⟨rfl, rfl, rfl, trivial, rfl, fun kind => by cases kind <;> rfl⟩
  rw [← hfresh, ← hboot]
  let pairs := [(key, Value.nil)]
  let made := w.machine.make (.hash pairs)
  have hknown : Within w.machine.heap.slots.size pairs :=
    within_cons ⟨within_of_slot?_none hkey _, within_nil _⟩ (within_of_eq_nil rfl)
  have hbefore : w.machine.heap.HasRoom 4 := by
    unfold Heap.HasRoom
    rw [hboot, Machine.boot_size]
    decide
  have hdistinct : (w.machine.alloc CoreClass.hash.value (.hash [])).2.DistinctKeys pairs :=
    List.pairwise_singleton _ _
  have heq : made = w.machine.alloc CoreClass.hash.value (.hash pairs) :=
    Machine.make_hash hbefore.addressable hdistinct
  have hafter : made.2.heap.HasRoom (made.2.frames.length + 3) := by
    obtain ⟨heap, symbols, methods, hframe, -⟩ := Machine.boot_frame
    have hframes : w.machine.frames = [] := by
      rw [hboot, hframe]
    rw [heq]
    show (w.machine.heap.alloc _ _).2.HasRoom (w.machine.frames.length + 3)
    rw [hframes]
    exact hbefore.alloc _ _
  exact ⟨.probe (.make (.hash pairs)) fun _ => .done (), { w with machine := made.2 }, made.1,
    .fresh huntouched, ⟨hknown, fun _ _ _ _ => trivial⟩, rfl,
    Machine.pairs?_make hbefore.addressable hdistinct, hafter⟩

/-- A program makes a hash with the key 1.  To store under 1 leaves it with this one key, to store under
2 adds one after it, and to store in nil raises a `TypeError`. -/
theorem hashes_map_keys_fixnum :
    ∃ (program : Program Unit .main) (u : World Unit) (hash : Value),
      ({ memory := () } : World Unit).Arises ∧ program.Honest Machine.boot.heap.slots.size ∧
      u = Outcome.world (program.run (.ofFuel 0) { memory := () }) ∧
      u.machine.heap.pairs? hash = some [(Value.ofFixnum 1, Value.nil)] ∧
      ∀ method : SymbolId,
        let store receiver key : Eval Unit Value := Builtin.hashSet.run (.ofFuel 0)
          { receiver, method, args := [key, Value.ofBool true] }
        (∃ u', store hash (Value.ofFixnum 1) u = .ok (Value.ofBool true) u' ∧
          (u'.machine.heap.pairs? hash).map (List.map Prod.fst) = some [Value.ofFixnum 1] ∧
          u'.machine.lookUpInHash hash (Value.ofFixnum 1) = some (Value.ofBool true)) ∧
        (∃ u', store hash (Value.ofFixnum 2) u = .ok (Value.ofBool true) u' ∧
          (u'.machine.heap.pairs? hash).map (List.map Prod.fst) =
            some [Value.ofFixnum 1, Value.ofFixnum 2] ∧
          u'.machine.lookUpInHash hash (Value.ofFixnum 1) = some Value.nil) ∧
        Raises (store Value.nil (Value.ofFixnum 1)) u .typeError := by
  obtain ⟨program, u, hash, harises, hhonest, hrun, hpairs, hroom⟩ :=
    exists_hash_made (Value.ofFixnum 1) (Value.slot?_ofFixnum 1)
  refine ⟨program, u, hash, harises, hhonest, hrun, hpairs, ?_⟩
  intro method store
  have hmoment : Machine.boot.heap.Develops u.machine.heap := by
    rw [hrun]
    exact (hashes_map_keys harises (.refl _)).1 0 _ program hhonest
  have hone : u.machine.heap.keyForm (Value.ofFixnum 1) = .number 1 :=
    Heap.keyForm_of_fixnum? (by decide) _
  have htwo : u.machine.heap.keyForm (Value.ofFixnum 2) = .number 2 :=
    Heap.keyForm_of_fixnum? (by decide) _
  have hkind : u.machine.heap.typeOf hash = .hash :=
    Heap.typeOf_of_body? (Heap.body?_of_pairs? hpairs)
  have hnil : u.machine.heap.typeOf Value.nil ≠ .hash := by
    have heq : u.machine.heap.typeOf Value.nil = .nil := rfl
    rw [heq]
    decide
  obtain ⟨-, -, -, -, hstore⟩ := hashes_map_keys harises hmoment
  have hstores := fun receiver key => hstore (.ofFuel 0)
    { receiver, method, args := [key, Value.ofBool true] } key (Value.ofBool true) rfl
  refine ⟨?_, ?_, ?_⟩
  · obtain ⟨u', hstored, -, hafter, -⟩ := (hstores hash (Value.ofFixnum 1)).1 hkind
    obtain ⟨pairs, hpairs', -, -, hkeys⟩ := hafter.keys _ hpairs
    refine ⟨u', hstored, ?_, ?_⟩
    · rw [hpairs', Option.map_some, hkeys, if_pos]
      · rfl
      · rw [Machine.holdsKey_cons, Machine.sameKey_iff.mpr rfl, Bool.true_or]
    · rw [hafter.lookUp, if_pos (Machine.sameKey_iff.mpr rfl)]
  · obtain ⟨u', hstored, -, hafter, -⟩ := (hstores hash (Value.ofFixnum 2)).1 hkind
    obtain ⟨pairs, hpairs', -, -, hkeys⟩ := hafter.keys _ hpairs
    refine ⟨u', hstored, ?_, ?_⟩
    · rw [hpairs', Option.map_some, hkeys, if_neg]
      · rfl
      · rw [Machine.holdsKey_cons, Machine.sameKey_eq, hone, htwo]
        exact Bool.false_ne_true
    · rw [hafter.lookUp, if_neg]
      · unfold Machine.lookUpInHash
        rw [hpairs, Option.getD_some, List.find?_cons, Machine.sameKey_iff.mpr rfl]
        rfl
      · rw [Machine.sameKey_eq, hone, htwo]
        exact Bool.false_ne_true
  · exact ((hstores Value.nil (Value.ofFixnum 1)).2 hnil).1.typeError hroom

end World

end EmbeddedRuby
