import EmbeddedRuby.Proofs.Handles
import EmbeddedRuby.Proofs.TracedExceptions

/-!
# How the objects develop

A heap is **closed** (`Heap.Closed`) if the handles in its objects are for slots that are filled.  There
are few things that the interpreter does to the objects (`Heap.Act`): it makes an object whose contents
fit its class, adds items to an array, stores in a hash, sets a constant or a class variable, and gives
an exception the backtrace that it does not have yet.  As long as nobody makes up handles, what is put
into the objects is within what is filled, and a heap that is closed stays closed
(`Heap.Develops.closed`).

Hashes are made empty, and their pairs are stored one after the other.  So in a heap that develops from
one in which no hash holds two keys that are the same, no hash ever does (`Heap.Develops.uniqueKeys`):
the keys are known, and a known key keeps the form by which it is compared.
-/

namespace EmbeddedRuby

/-! ### Words that are no handles -/

namespace Value

/-- A small Integer stands for itself and refers to no slot. -/
theorem slot?_ofFixnum (n : Int) : (ofFixnum n).slot? = none := by
  have hword : (ofFixnum n).word.toNat % 2 = 1 := by
    simp only [ofFixnum, ofWord, UInt64.toNat_ofNat']
    omega
  unfold slot?
  rw [if_pos (.inr (by omega))]

/-- A symbol refers to no slot. -/
theorem slot?_ofSymbol (id : SymbolId) : (ofSymbol id).slot? = none := by
  have hword : (ofSymbol id).word.toNat % 8 = 4 := by
    simp only [ofSymbol, ofWord, UInt64.toNat_ofNat']
    omega
  unfold slot?
  rw [if_pos (.inr (by omega))]

/-- Neither `true` nor `false` refers to a slot. -/
theorem slot?_ofBool (b : Bool) : (ofBool b).slot? = none := by
  cases b <;> decide

end Value

/-- A word that refers to no slot can be known at any time. -/
theorem within_of_slot?_none {v : Value} (hv : v.slot? = none) (known : Nat) : Within known v := by
  intro index hindex
  rw [hv] at hindex
  cases hindex

/-- `nil` is known to everybody. -/
theorem within_nil (known : Nat) : Within known Value.nil :=
  within_of_slot?_none (by decide) known

/-- `true` and `false` are known to everybody. -/
theorem within_ofBool (b : Bool) (known : Nat) : Within known (Value.ofBool b) :=
  within_of_slot?_none (Value.slot?_ofBool b) known

/-- Small Integers are known to everybody. -/
theorem within_ofFixnum (n : Int) (known : Nat) : Within known (Value.ofFixnum n) :=
  within_of_slot?_none (Value.slot?_ofFixnum n) known

/-- Symbols are known to everybody. -/
theorem within_ofSymbol (id : SymbolId) (known : Nat) : Within known (Value.ofSymbol id) :=
  within_of_slot?_none (Value.slot?_ofSymbol id) known

/-! ### Lists, tables and other data with handles -/

section Data

variable {α β : Type} [Handled α] [Handled β] {known : Nat}

/-- Where there are no items, there are none that are not known. -/
theorem within_of_eq_nil {items : List α} (hitems : items = []) : Within known items := by
  subst hitems
  intro a ha
  cases ha

/-- Nothing is within whatever is known. -/
theorem within_none : Within known (none : Option α) :=
  fun _ ha => nomatch ha

/-- Something is known if what it holds is. -/
theorem within_some {a : α} (ha : Within known a) : Within known (some a) := by
  rintro b ⟨⟩
  exact ha

/-- A list is known from its first item and its rest. -/
theorem within_cons {a : α} {rest : List α} (ha : Within known a) (hrest : Within known rest) :
    Within known (a :: rest) := by
  intro b hb
  cases hb with
  | head => exact ha
  | tail _ hb => exact hrest b hb

/-- Two lists that are known make one that is known. -/
theorem within_append {first rest : List α} (hfirst : Within known first)
    (hrest : Within known rest) : Within known (first ++ rest) := by
  intro a ha
  rcases List.mem_append.mp ha with ha | ha
  · exact hfirst a ha
  · exact hrest a ha

/-- What is in a table is what was in it and what was put in. -/
theorem within_insert {κ : Type} [DecidableEq κ] [Handled κ] {t : Table κ α} {key : κ} {value : α}
    (ht : Within known t) (hkey : Within known key) (hvalue : Within known value) :
    Within known (t.insert key value) := by
  have hrest : Within known (t.entries.filter fun entry => entry.1 != key) :=
    fun entry hentry => ht entry (List.mem_of_mem_filter hentry)
  exact within_cons ⟨hkey, hvalue⟩ hrest

/-- The pairs of a hash stay known when a known pair is stored among them. -/
theorem within_storePair {m : Machine} {key value : Value} {pairs : List (Value × Value)}
    (hpairs : Within known pairs) (hkey : Within known key) (hvalue : Within known value) :
    Within known (m.storePair key value pairs) := by
  induction pairs with
  | nil => exact within_cons ⟨hkey, hvalue⟩ hpairs
  | cons pair rest ih =>
      have hrest : Within known rest := fun other hother => hpairs other (.tail _ hother)
      have hpair : Within known pair := hpairs pair (.head rest)
      unfold Machine.storePair
      split
      · exact within_cons ⟨hpair.1, hvalue⟩ hrest
      · exact within_cons hpair (ih hrest)

/-- What is found in a known table is known. -/
theorem within_get? {κ : Type} [DecidableEq κ] [Handled κ] {t : Table κ α} {key : κ} {value : α}
    (ht : Within known t) (hvalue : t.get? key = some value) : Within known value := by
  obtain ⟨entry, hentry, rfl⟩ := Option.map_eq_some_iff.mp hvalue
  exact (ht entry (List.mem_of_find?_eq_some hentry)).2

end Data

/-! ### Closed heaps -/

namespace Heap

variable {h h₁ h₂ : Heap} {v cls : Value} {b : Body}

/-- The handles in the objects are for slots that are filled. -/
def Closed (h : Heap) : Prop :=
  ∀ v slot, h.slot? v = some slot → Within h.slots.size slot

/-- What is there after an object was made is what was there before, or the object. -/
theorem slot?_alloc_cases {slot : Slot} (hslot : (h.alloc cls b).2.slot? v = some slot) :
    h.slot? v = some slot ∨ slot = ⟨cls, b⟩ := by
  obtain ⟨place, hplace, hget⟩ := Option.bind_eq_some_iff.mp hslot
  rcases getElem?_alloc_cases hget with hold | ⟨-, hnew⟩
  · exact .inl (Option.bind_eq_some_iff.mpr ⟨place, hplace, hold⟩)
  · exact .inr hnew

/-- With other contents for one object, objects are what they were or have these contents. -/
theorem slot?_setBody_cases {other : Value} {slot : Slot}
    (hslot : (h.setBody other b).slot? v = some slot) :
    ∃ old, h.slot? v = some old ∧ slot.cls = old.cls ∧
      (slot.body = old.body ∨ v = other ∧ slot.body = b) := by
  obtain ⟨place, hplace, hget⟩ := Option.bind_eq_some_iff.mp hslot
  obtain ⟨old, hold, hcls, hbody⟩ := getElem?_setBody_cases hget
  refine ⟨old, Option.bind_eq_some_iff.mpr ⟨place, hplace, hold⟩, hcls, ?_⟩
  refine hbody.imp_right fun ⟨hother, hnew⟩ => ⟨?_, hnew⟩
  rw [Value.eq_ofSlot hplace, Value.eq_ofSlot hother]

/-- The contents found after an object was made were there before, or are those of the object. -/
theorem body?_alloc_cases {c : Body} (hc : (h.alloc cls b).2.body? v = some c) :
    h.body? v = some c ∨ c = b := by
  obtain ⟨slot, hslot, rfl⟩ := Option.map_eq_some_iff.mp hc
  rcases slot?_alloc_cases hslot with hold | rfl
  · exact .inl (body?_of_slot? hold)
  · exact .inr rfl

/-- The contents found after a change were there before, or are those that were set. -/
theorem body?_setBody_cases {other : Value} {c : Body}
    (hc : (h.setBody other b).body? v = some c) : h.body? v = some c ∨ v = other ∧ c = b := by
  obtain ⟨slot, hslot, rfl⟩ := Option.map_eq_some_iff.mp hc
  obtain ⟨old, hold, -, hbody⟩ := slot?_setBody_cases hslot
  rcases hbody with hsame | hnew
  · rw [hsame]
    exact .inl (body?_of_slot? hold)
  · exact .inr hnew

namespace Closed

/-- A slot of a closed heap holds handles that are filled. -/
theorem slot (hclosed : h.Closed) {slot : Slot} (hslot : h.slot? v = some slot) :
    Within h.slots.size slot :=
  hclosed v slot hslot

/-- The contents of an object in a closed heap hold handles that are filled. -/
theorem body (hclosed : h.Closed) (hbody : h.body? v = some b) : Within h.slots.size b := by
  obtain ⟨slot, hslot, rfl⟩ := Option.map_eq_some_iff.mp hbody
  exact (hclosed.slot hslot).2

/-- A new object with known class and contents leaves the heap closed. -/
theorem alloc (hclosed : h.Closed) (hcls : Within h.slots.size cls) (hb : Within h.slots.size b) :
    (h.alloc cls b).2.Closed := by
  have hsize : h.slots.size ≤ (h.alloc cls b).2.slots.size := (Evolves.alloc h cls b).size_le
  intro v slot hslot
  rcases slot?_alloc_cases hslot with hold | rfl
  · exact Handled.mono hsize (hclosed.slot hold)
  · exact ⟨Handled.mono hsize hcls, Handled.mono hsize hb⟩

/-- Known contents in place of others leave the heap closed. -/
theorem setBody (hclosed : h.Closed) (hb : Within h.slots.size b) (v : Value) :
    (h.setBody v b).Closed := by
  intro other slot hslot
  rw [size_setBody]
  obtain ⟨old, hold, hcls, hbody⟩ := slot?_setBody_cases hslot
  have hwithin := hclosed.slot hold
  refine ⟨hcls ▸ hwithin.1, ?_⟩
  rcases hbody with hsame | ⟨-, hnew⟩
  · rw [hsame]
    exact hwithin.2
  · rw [hnew]
    exact hb

/-- A change of a module leaves the heap closed if it only brings in what is known. -/
theorem changeModule (hclosed : h.Closed) {change : ModuleData → ModuleData}
    (hchange : ∀ data, Within h.slots.size data → Within h.slots.size (change data)) (v : Value) :
    (h.changeModule v change).Closed := by
  unfold Heap.changeModule
  split
  · rename_i data hdata
    exact hclosed.setBody (hchange data (hclosed.body (module?_eq_some_iff.mp hdata))) v
  · exact hclosed

/-! What is found in a closed heap is known. -/

/-- The items of an array in a closed heap are known; what is no array has none. -/
theorem items (hclosed : h.Closed) (v : Value) : Within h.slots.size ((h.items? v).getD []) := by
  cases hitems : h.items? v with
  | none => exact within_of_eq_nil rfl
  | some items => exact hclosed.body (body?_of_items? hitems)

/-- The keys and values of a hash in a closed heap are known; what is no hash has none. -/
theorem pairs (hclosed : h.Closed) (v : Value) : Within h.slots.size ((h.pairs? v).getD []) := by
  cases hpairs : h.pairs? v with
  | none => exact within_of_eq_nil rfl
  | some pairs => exact hclosed.body (body?_of_pairs? hpairs)

/-- The class above a class is known in a closed heap. -/
theorem superclass (hclosed : h.Closed) {data : ModuleData} (hdata : h.module? v = some data) :
    Within h.slots.size data.superclass :=
  (hclosed.body (module?_eq_some_iff.mp hdata)).1

/-- A constant of the module itself is known in a closed heap. -/
theorem constantAt (hclosed : h.Closed) {module value : Value} {id : SymbolId}
    (hvalue : h.constantAt? module id = some value) : Within h.slots.size value := by
  obtain ⟨data, hdata, hget⟩ := Option.bind_eq_some_iff.mp hvalue
  exact within_get? (hclosed.body (module?_eq_some_iff.mp hdata)).2.1 hget

/-- A constant found on the way up from a module is known in a closed heap. -/
theorem constant (hclosed : h.Closed) {module value : Value} {id : SymbolId}
    (hvalue : h.constant? module id = some value) : Within h.slots.size value := by
  obtain ⟨owner, -, howner⟩ := List.exists_of_findSome?_eq_some hvalue
  exact hclosed.constantAt howner

/-- A class variable is known in a closed heap. -/
theorem classVar (hclosed : h.Closed) {value : Value} {id : SymbolId}
    (hvalue : h.classVar? cls id = some value) : Within h.slots.size value := by
  obtain ⟨owner, -, howner⟩ := List.exists_of_findSome?_eq_some hvalue
  obtain ⟨data, hdata, hget⟩ := Option.bind_eq_some_iff.mp howner
  exact within_get? (hclosed.body (module?_eq_some_iff.mp hdata)).2.2 hget

/-- The message and the backtrace of an exception are known in a closed heap. -/
theorem exceptionParts (hclosed : h.Closed) (v : Value) :
    Within h.slots.size (h.exceptionParts v) := by
  unfold Heap.exceptionParts
  split
  · rename_i message backtrace hbody
    exact hclosed.body hbody
  · exact ⟨within_nil _, within_nil _⟩

end Closed

/-! ### What is done to the objects -/

/-- The contents are those with which objects of the class are made. -/
def Fits (h : Heap) (cls : Value) : Body → Prop
  | .float _ => cls = CoreClass.float.value
  | .bignum n => cls = CoreClass.integer.value ∧ ¬(fixnumMin ≤ n ∧ n ≤ fixnumMax)
  | .string _ => Methods.newKind? h cls = some .string
  | .array _ => Methods.newKind? h cls = some .array
  | .hash pairs => Methods.newKind? h cls = some .hash ∧ pairs = []
  | .exception .. => Methods.newKind? h cls = some .exception
  | .plain => Methods.newKind? h cls = none
  | .proc _ => cls = CoreClass.procClass.value
  | .ofModule data =>
    cls = (if data.isClass then CoreClass.classClass else CoreClass.moduleClass).value ∧
      data.isClass = data.superclass.isSome ∧ data.constants = {} ∧ data.classVars = {}

/-- What the interpreter does to the objects, with words that are known. -/
inductive Act : Heap → Heap → Prop
  | alloc {h : Heap} {cls : Value} {b : Body} (hfits : h.Fits cls b) (hcls : Within h.slots.size cls)
      (hb : Within h.slots.size b) : Act h (h.alloc cls b).2
  | pushItems {h : Heap} (array : Value) {items : List Value} (hitems : Within h.slots.size items) :
      Act h (Methods.pushItems h array items)
  | storeInHash {m : Machine} (hash : Value) {key value : Value}
      (hkey : Within m.heap.slots.size key) (hvalue : Within m.heap.slots.size value) :
      Act m.heap (m.storeInHash hash key value).heap
  | setConstant {h : Heap} (module : Value) (id : SymbolId) {value : Value}
      (hvalue : Within h.slots.size value) : Act h (h.setConstant module id value)
  | setClassVar {h : Heap} (cls : Value) (id : SymbolId) {value : Value}
      (hvalue : Within h.slots.size value) : Act h (h.setClassVar cls id value)
  /-- A new array of lines becomes the backtrace of an exception that has none. -/
  | trace {h : Heap} {exception message : Value} {lines : List Value}
      (hbody : h.body? exception = some (.exception message Value.nil))
      (harray : Within h.slots.size CoreClass.array.value) (hlines : Within h.slots.size lines) :
      Act h ((h.alloc CoreClass.array.value (.array lines)).2.setBody exception
        (.exception message (h.alloc CoreClass.array.value (.array lines)).1))

/-- The heap comes from the other one by such acts. -/
def Develops (h h' : Heap) : Prop :=
  Relation.ReflTransGen Act h h'

namespace Act

/-- Each act is a way for the heap to evolve: classes and forms of keys stay. -/
theorem evolves (hact : h.Act h₁) : h.Evolves h₁ := by
  cases hact with
  | alloc => exact .alloc h _ _
  | pushItems array => exact (Machine.Step.pushItems { heap := h } array _).evolves
  | storeInHash hash => exact (Machine.Step.storeInHash _ hash _ _).evolves
  | setConstant | setClassVar => exact .changeModule h _ fun _ => ⟨rfl, rfl, rfl⟩
  | trace hbody =>
      refine (Evolves.alloc h _ _).trans (.setBody fun old hold => ?_)
      rw [body?_alloc_of_some hbody] at hold
      cases hold
      exact .exception _ _ _

/-- Each act puts only known words into the objects, one case for each. -/
theorem closed (hact : h.Act h₁) (hclosed : h.Closed) : h₁.Closed := by
  cases hact with
  | alloc hfits hcls hb => exact hclosed.alloc hcls hb
  | @pushItems _ array items hitems =>
      unfold Methods.pushItems
      split
      · rename_i old hold
        have hboth : Within h.slots.size (old ++ items) :=
          within_append (hclosed.body (body?_of_items? hold)) hitems
        exact hclosed.setBody hboth array
      · exact hclosed
  | @storeInHash m hash key value hkey hvalue =>
      unfold Machine.storeInHash
      split
      · rename_i old hold
        exact hclosed.setBody (within_storePair (hclosed.body (body?_of_pairs? hold)) hkey hvalue) hash
      · exact hclosed
  | setConstant module id hvalue =>
      refine hclosed.changeModule (fun data hdata => ?_) module
      exact ⟨hdata.1, within_insert hdata.2.1 trivial hvalue, hdata.2.2⟩
  | setClassVar cls id hvalue =>
      refine hclosed.changeModule (fun data hdata => ?_) cls
      exact ⟨hdata.1, hdata.2.1, within_insert hdata.2.2 trivial hvalue⟩
  | @trace _ exception message lines hbody harray hlines =>
      have hmade : (h.alloc CoreClass.array.value (.array lines)).2.Closed := hclosed.alloc harray hlines
      have hsize := (Evolves.alloc h CoreClass.array.value (.array lines)).size_le
      have hparts : Within h.slots.size (message, Value.nil) := hclosed.body hbody
      have hnew : Within (h.alloc CoreClass.array.value (.array lines)).2.slots.size
          (message, (h.alloc CoreClass.array.value (.array lines)).1) :=
        ⟨Handled.mono hsize hparts.1, knows_alloc h _ _⟩
      exact hmade.setBody hnew exception

/-- The pairs of a hash are what they were, or something was stored, or the hash is new. -/
theorem pairs?_cases (hact : h.Act h₁) {hash : Value} {pairs : List (Value × Value)}
    (hpairs : h₁.pairs? hash = some pairs) :
    h.pairs? hash = some pairs ∨ pairs = [] ∨
      ∃ m key value old, m.heap = h ∧ h.pairs? hash = some old ∧
        h₁ = (Machine.storeInHash m hash key value).heap := by
  have hbody := body?_of_pairs? hpairs
  cases hact with
  | alloc hfits =>
      rcases body?_alloc_cases hbody with hold | rfl
      · exact .inl (pairs?_of_body? hold)
      · exact .inr (.inl hfits.2)
  | pushItems array =>
      unfold Methods.pushItems at hbody
      split at hbody
      · rcases body?_setBody_cases hbody with hold | ⟨-, hnew⟩
        · exact .inl (pairs?_of_body? hold)
        · cases hnew
      · exact .inl (pairs?_of_body? hbody)
  | @storeInHash m other key value =>
      cases hold : m.heap.pairs? other with
      | none =>
          unfold Machine.storeInHash at hbody
          rw [hold] at hbody
          exact .inl (pairs?_of_body? hbody)
      | some old =>
          rw [Machine.storeInHash_eq hold] at hbody
          rcases body?_setBody_cases hbody with hkept | ⟨rfl, -⟩
          · exact .inl (pairs?_of_body? hkept)
          · exact .inr (.inr ⟨m, key, value, old, rfl, hold, rfl⟩)
  | setConstant module | setClassVar module =>
      have hkept : (h.changeModule _ _).body? hash = some (.hash pairs) := hbody
      unfold changeModule at hkept
      split at hkept
      · rcases body?_setBody_cases hkept with hold | ⟨-, hnew⟩
        · exact .inl (pairs?_of_body? hold)
        · cases hnew
      · exact .inl (pairs?_of_body? hkept)
  | trace =>
      rcases body?_setBody_cases hbody with hkept | ⟨-, hnew⟩
      · rcases body?_alloc_cases hkept with hold | hnew
        · exact .inl (pairs?_of_body? hold)
        · cases hnew
      · cases hnew

end Act

/-- No hash holds two keys that are the same. -/
def UniqueKeys (h : Heap) : Prop :=
  ∀ hash pairs, h.pairs? hash = some pairs →
    pairs.Pairwise fun pair other => h.keyForm pair.1 ≠ h.keyForm other.1

/-- Keys that are known go on being apart. -/
theorem Evolves.pairwise_keyForm (hevolves : h.Evolves h₁) {pairs : List (Value × Value)}
    (hknown : Within h.slots.size pairs)
    (hpairs : pairs.Pairwise fun pair other => h.keyForm pair.1 ≠ h.keyForm other.1) :
    pairs.Pairwise fun pair other => h₁.keyForm pair.1 ≠ h₁.keyForm other.1 := by
  refine hpairs.imp_of_mem fun {pair other} hpair hother happart => ?_
  rw [hevolves.keyForm (hknown pair hpair).1, hevolves.keyForm (hknown other hother).1]
  exact happart

/-- Each act keeps the keys of the hashes apart: storing replaces the value of a key that is there.
-/
theorem Act.uniqueKeys (hact : h.Act h₁) (hclosed : h.Closed) (hunique : h.UniqueKeys) :
    h₁.UniqueKeys := by
  intro hash pairs hpairs
  rcases hact.pairs?_cases hpairs with hold | rfl | ⟨m, key, value, old, rfl, hold, rfl⟩
  · exact hact.evolves.pairwise_keyForm (hclosed.body (body?_of_pairs? hold)) (hunique hash pairs hold)
  · exact .nil
  · have hapart : m.DistinctKeys old :=
      (hunique hash old hold).imp fun hforms => Machine.sameKey_eq_false_iff.mpr hforms
    rw [Machine.pairs?_storeInHash hold] at hpairs
    cases hpairs
    refine (hapart.storePair key value).imp fun {pair other} hforms => ?_
    rw [Machine.storeInHash_eq hold, keyForm_setBody hold, keyForm_setBody hold]
    exact Machine.sameKey_eq_false_iff.mp hforms

namespace Develops

/-- A heap develops into itself, by no act at all. -/
theorem refl (h : Heap) : h.Develops h :=
  Relation.ReflTransGen.refl

/-- Developments follow one another. -/
theorem trans (hfirst : h.Develops h₁) (hlater : h₁.Develops h₂) : h.Develops h₂ :=
  Relation.ReflTransGen.trans hfirst hlater

/-- A single act is a development. -/
theorem act (hact : h.Act h₁) : h.Develops h₁ :=
  .single hact

/-- A heap that develops evolves, by induction over the acts. -/
theorem evolves (hdevelops : h.Develops h₁) : h.Evolves h₁ := by
  induction hdevelops with
  | refl => exact .refl h
  | tail _ last ih => exact ih.trans last.evolves

/-- Slots are filled and never emptied. -/
theorem size_le (hdevelops : h.Develops h₁) : h.slots.size ≤ h₁.slots.size :=
  hdevelops.evolves.size_le

/-- Where no handles are made up, none come into the objects. -/
theorem closed (hdevelops : h.Develops h₁) (hclosed : h.Closed) : h₁.Closed := by
  induction hdevelops with
  | refl => exact hclosed
  | tail _ last ih => exact last.closed ih

/-- Where no handles are made up, no hash comes to hold two keys that are the same. -/
theorem uniqueKeys (hdevelops : h.Develops h₁) (hclosed : h.Closed) (hunique : h.UniqueKeys) :
    h₁.UniqueKeys := by
  induction hdevelops with
  | refl => exact hunique
  | tail before last ih => exact last.uniqueKeys (closed before hclosed) ih

end Develops

/-! ### Kinds of new objects -/

/-- The kind that a class gives to new objects stays the same. -/
theorem Evolves.newKind? (hevolves : h.Evolves h₁) {kind : CoreClass}
    (hkind : Methods.newKind? h cls = some kind) : Methods.newKind? h₁ cls = some kind := by
  obtain ⟨above, habove⟩ := hevolves.chain_prefix hevolves.size_le cls
  unfold Methods.newKind? ancestors at hkind ⊢
  rw [← habove, List.findSome?_append, hkind]
  rfl

/-- A class that stands for a kind gives it. -/
theorem newKind?_value (h : Heap) {c : CoreClass} (hc : c ∈ Methods.kindClasses) :
    Methods.newKind? h c.value = some c := by
  obtain ⟨above, habove⟩ := h.ancestors_eq_cons c.value
  have hfound : (Methods.kindClasses.find? fun d => d.value == c.value) = some c := by
    revert hc
    cases c <;> decide +kernel
  unfold Methods.newKind?
  rw [habove, List.findSome?_cons, hfound]

/-- The core classes stand in slots that are filled. -/
theorem CoreStanding.within (hcore : h.CoreStanding) (c : CoreClass) :
    Within h.slots.size c.value := by
  obtain ⟨data, hdata, -⟩ := Option.map_eq_some_iff.mp (hcore c)
  obtain ⟨slot, hslot, -⟩ := Option.map_eq_some_iff.mp (module?_eq_some_iff.mp hdata)
  exact knows_of_slot? hslot

/-- What a fault becomes is an exception. -/
theorem CoreStanding.newKind?_fault (hcore : h.CoreStanding) (fault : Fault) :
    Methods.newKind? h fault.cls.value = some .exception := by
  have hlisted : ∀ c : CoreClass, .exception ∈ c.chain CoreClass.all.length →
      ((c.chain CoreClass.all.length).map CoreClass.value).findSome?
        (fun ancestor => Methods.kindClasses.find? fun d => d.value == ancestor) =
          some .exception := by
    intro c
    cases c <;> decide +kernel
  obtain ⟨above, habove⟩ := Evolves.chain_prefix (.refl h) hcore.size_le fault.cls.value
  unfold Methods.newKind? ancestors
  rw [← habove, List.findSome?_append, hcore.chain, hlisted _ fault.exception_mem_chain]
  rfl

/-- An act adds at most one object, with contents that fit its class, and then changes contents. -/
theorem Act.adds (hact : h.Act h₁) : h₁.slots.size = h.slots.size ∨
    ∃ cls b, h.Fits cls b ∧ Within h.slots.size (Slot.mk cls b) ∧
      (h.alloc cls b).2.Evolves h₁ ∧ h₁.slots.size = (h.alloc cls b).2.slots.size := by
  cases hact with
  | alloc hfits hcls hb => exact .inr ⟨_, _, hfits, ⟨hcls, hb⟩, .refl _, rfl⟩
  | pushItems array =>
      unfold Methods.pushItems
      split
      · exact .inl (h.size_setBody _ _)
      · exact .inl rfl
  | storeInHash hash =>
      unfold Machine.storeInHash
      split
      · exact .inl (Heap.size_setBody _ _ _)
      · exact .inl rfl
  | setConstant | setClassVar => exact .inl (h.size_changeModule _ _)
  | @trace _ exception message lines hbody harray hlines =>
      have hfits : h.Fits CoreClass.array.value (.array lines) := h.newKind?_value (by decide)
      refine .inr ⟨_, _, hfits, ⟨harray, hlines⟩, .setBody fun old hold => ?_, size_setBody _ _ _⟩
      rw [body?_alloc_of_some hbody] at hold
      cases hold
      exact .exception _ _ _

end Heap

/-! ### What the machine does -/

namespace Machine

open Heap (Develops)

variable {m : Machine}

/-- A new string is one act. -/
theorem develops_newString (hcore : m.heap.CoreStanding) (bytes : List UInt8) :
    m.heap.Develops (m.newString bytes).2.heap :=
  .act (.alloc (m.heap.newKind?_value (by decide)) (hcore.within .string) trivial)

/-- A new Float is one act. -/
theorem develops_newFloat (hcore : m.heap.CoreStanding) (x : Double) :
    m.heap.Develops (m.newFloat x).2.heap :=
  .act (.alloc rfl (hcore.within .float) trivial)

/-- A new array of known items is one act. -/
theorem develops_newArray (hcore : m.heap.CoreStanding) {items : List Value}
    (hitems : Within m.heap.slots.size items) : m.heap.Develops (m.newArray items).2.heap :=
  .act (.alloc (m.heap.newKind?_value (by decide)) (hcore.within .array) hitems)

/-- An Integer is one act where it does not fit a word, and else none. -/
theorem develops_newInteger (hcore : m.heap.CoreStanding) (n : Int) :
    m.heap.Develops (m.newInteger n).2.heap := by
  show m.heap.Develops (m.heap.ofInteger n).2
  unfold Heap.ofInteger
  split
  · exact .refl m.heap
  · rename_i hbig
    exact .act (.alloc ⟨rfl, hbig⟩ (hcore.within .integer) trivial)

/-- What an integer is made into is known. -/
theorem within_newInteger (m : Machine) (n : Int) :
    Within (m.newInteger n).2.heap.slots.size (m.newInteger n).1 := by
  show Within (m.heap.ofInteger n).2.slots.size (m.heap.ofInteger n).1
  unfold Heap.ofInteger
  split
  · exact within_ofFixnum n _
  · exact m.heap.knows_alloc _ _

/-- A new module below a known class is one act. -/
theorem develops_newModule (hcore : m.heap.CoreStanding) (name : Option String)
    {superclass : Option Value} (hsuper : Within m.heap.slots.size superclass) :
    m.heap.Develops (m.newModule name superclass).2.heap := by
  have hfits : m.heap.Fits (if superclass.isSome then CoreClass.classClass else .moduleClass).value
      (.ofModule { name, isClass := superclass.isSome, superclass }) := ⟨rfl, rfl, rfl, rfl⟩
  have hdata : Within m.heap.slots.size
      ({ name, isClass := superclass.isSome, superclass } : ModuleData) :=
    ⟨hsuper, within_of_eq_nil rfl, within_of_eq_nil rfl⟩
  exact .act (.alloc hfits (hcore.within _) hdata)

/-- Storing pairs one by one takes as many acts, by induction over them. -/
theorem develops_storePairs (hash : Value) {pairs : List (Value × Value)}
    (hpairs : Within m.heap.slots.size pairs) :
    m.heap.Develops (pairs.foldl (fun m pair => m.storeInHash hash pair.1 pair.2) m).heap := by
  induction pairs generalizing m with
  | nil => exact .refl m.heap
  | cons pair rest ih =>
      have hpair : Within m.heap.slots.size pair := hpairs pair (.head rest)
      have hstored : m.heap.Develops (m.storeInHash hash pair.1 pair.2).heap :=
        .act (.storeInHash hash hpair.1 hpair.2)
      refine hstored.trans (ih fun other hother => ?_)
      exact Handled.mono hstored.size_le (hpairs other (.tail pair hother))

/-- A datum is made by acts, those for the parts of a collection coming first. -/
theorem develops_make (hcore : m.heap.CoreStanding) {datum : Datum}
    (hdatum : Within m.heap.slots.size datum) : m.heap.Develops (m.make datum).2.heap := by
  cases datum with
  | int n => exact develops_newInteger hcore n
  | float x => exact develops_newFloat hcore x
  | string bytes => exact develops_newString hcore bytes
  | symbol name => exact .refl m.heap
  | array items => exact develops_newArray hcore hdatum
  | hash pairs =>
      have hmade : m.heap.Develops (m.alloc CoreClass.hash.value (.hash [])).2.heap :=
        .act (.alloc ⟨m.heap.newKind?_value (by decide), rfl⟩ (hcore.within .hash) (within_of_eq_nil rfl))
      exact hmade.trans (develops_storePairs _ (Handled.mono hmade.size_le hdatum))

/-- What a datum is made into is known. -/
theorem within_make {datum : Datum}
    (hdatum : Within m.heap.slots.size datum) :
    Within (m.make datum).2.heap.slots.size (m.make datum).1 := by
  cases datum with
  | int n => exact m.within_newInteger n
  | float | string | array => exact m.heap.knows_alloc _ _
  | symbol name => exact within_ofSymbol _ _
  | hash pairs =>
      let made := (m.alloc CoreClass.hash.value (.hash [])).2
      have hhash : Within made.heap.slots.size (m.alloc CoreClass.hash.value (.hash [])).1 :=
        m.heap.knows_alloc _ _
      have hmade := (Heap.Evolves.alloc m.heap CoreClass.hash.value (.hash [])).size_le
      have hpairs : Within made.heap.slots.size pairs := Handled.mono hmade hdatum
      exact Handled.mono (develops_storePairs _ hpairs).size_le hhash

/-- Texts are made one by one, and all of them are known afterwards. -/
theorem develops_newTexts (hcore : m.heap.CoreStanding) (texts : List String) :
    m.heap.Develops (m.newTexts texts).2.heap ∧
      Within (m.newTexts texts).2.heap.slots.size (m.newTexts texts).1 := by
  induction texts generalizing m with
  | nil => exact ⟨.refl m.heap, within_of_eq_nil rfl⟩
  | cons text rest ih =>
      have hmade : m.heap.Develops (m.newText text).2.heap := develops_newString hcore _
      obtain ⟨hrest, hvalues⟩ := ih (m := (m.newText text).2) (hcore.of_evolves hmade.evolves)
      exact ⟨hmade.trans hrest,
        within_cons (Handled.mono hrest.size_le (m.heap.knows_alloc _ _)) hvalues⟩

/-- A fault's exception is made after its message and its backtrace. -/
theorem develops_newException (hcore : m.heap.CoreStanding) (fault : Fault) :
    m.heap.Develops (m.newException fault).2.heap := by
  let m₁ := (m.newText fault.message).2
  let m₂ := (m₁.newTexts (m₁.frames.map Frame.render)).2
  have hmessage : m.heap.Develops m₁.heap := develops_newString hcore _
  have hcore₁ := hcore.of_evolves hmessage.evolves
  obtain ⟨hlines, hknown⟩ := develops_newTexts hcore₁ (m₁.frames.map Frame.render)
  have hcore₂ := hcore₁.of_evolves hlines.evolves
  have htrace : m₂.heap.Develops m₁.backtrace.2.heap := develops_newArray hcore₂ hknown
  have hall := (hmessage.trans hlines).trans htrace
  have hparts : Within m₁.backtrace.2.heap.slots.size ((m.newText fault.message).1, m₁.backtrace.1) :=
    ⟨Handled.mono (hlines.trans htrace).size_le (m.heap.knows_alloc _ _), m₂.heap.knows_alloc _ _⟩
  have hcore₃ := hcore.of_evolves hall.evolves
  exact hall.trans (.act (.alloc (hcore₃.newKind?_fault fault) (hcore₃.within _) hparts))

/-- A backtrace goes into an exception that has none. -/
theorem develops_fillBacktrace (hcore : m.heap.CoreStanding) (exception : Value) :
    m.heap.Develops (m.fillBacktrace exception).heap := by
  unfold fillBacktrace
  split
  · rename_i message backtrace hbody
    split
    · rename_i hnil
      subst hnil
      obtain ⟨hlines, hknown⟩ := develops_newTexts hcore (m.frames.map Frame.render)
      have hbody₁ := (m.newTexts_keepsSlots (m.frames.map Frame.render)).body? hbody
      have harray := (hcore.of_evolves hlines.evolves).within .array
      exact hlines.trans (.act (.trace hbody₁ harray hknown))
    · exact .refl m.heap
  · exact .refl m.heap

/-! Only the objects are concerned. -/

/-- New texts leave the rest of the machine as it was. -/
theorem newTexts_frame (m : Machine) (texts : List String) :
    ∃ heap, (m.newTexts texts).2 = { m with heap } := by
  induction texts generalizing m with
  | nil => exact ⟨m.heap, rfl⟩
  | cons text rest ih => exact ih (m.newText text).2

/-- A backtrace is read off the frames, which stay. -/
theorem backtrace_frame (m : Machine) : ∃ heap, m.backtrace.2 = { m with heap } := by
  obtain ⟨heap, heq⟩ := m.newTexts_frame (m.frames.map Frame.render)
  unfold backtrace
  dsimp only
  rw [heq]
  exact ⟨_, rfl⟩

/-- A new exception is not pending yet. -/
theorem newException_frame (m : Machine) (fault : Fault) :
    ∃ heap, (m.newException fault).2 = { m with heap } := by
  obtain ⟨heap, heq⟩ := (m.newText fault.message).2.backtrace_frame
  unfold newException
  dsimp only
  rw [heq]
  exact ⟨_, rfl⟩

/-- An exception with its backtrace is the same object in the same machine. -/
theorem fillBacktrace_frame (m : Machine) (exception : Value) :
    ∃ heap, m.fillBacktrace exception = { m with heap } := by
  unfold fillBacktrace
  split
  · split
    · obtain ⟨heap, heq⟩ := m.backtrace_frame
      dsimp only
      rw [heq]
      exact ⟨_, rfl⟩
    · exact ⟨m.heap, rfl⟩
  · exact ⟨m.heap, rfl⟩

end Machine

end EmbeddedRuby
