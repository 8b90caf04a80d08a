import EmbeddedRuby.Proofs.Ancestries

/-!
# What the class of an object says of its contents

The contents of an object are of the kind that goes with its class (`Heap.Suits`).  Strings, arrays,
hashes and exceptions may be of a class below the core class; numbers, procs, classes and modules are of
the core class itself; and an object is plain just in case its class is below none of those to which a
kind of contents belongs.  The first class above an object's own that stands for a kind decides, and as
the way up from a class never changes, it decides the same way ever after (`Heap.Suits.later`).

What is done to an object later adds to it (`Body.Grows`): items come at the end of an array, keys at the
end of a hash, and an exception without a backtrace may get one.

The main statement is `World.objects_keep_kinds`.
-/

namespace EmbeddedRuby

open Eval

/-! ### Kinds of contents -/

/-- The core class to which such contents belong; the contents of plain objects belong to none. -/
def Body.kind? : Body → Option CoreClass
  | .float _ => some .float
  | .bignum _ => some .integer
  | .string _ => some .string
  | .array _ => some .array
  | .hash _ => some .hash
  | .ofModule data => some (if data.isClass then .classClass else .moduleClass)
  | .exception .. => some .exception
  | .proc _ => some .procClass
  | .plain => none

/-- Contents stay of their kind, whatever becomes of them. -/
theorem Body.Becomes.kind? {b b' : Body} (h : b.Becomes b') : b'.kind? = b.kind? := by
  cases h with
  | same | array | hash | exception => rfl
  | module hname hclass => simp only [Body.kind?, hclass]

/-- Only the contents of plain objects belong to no class. -/
theorem Body.kind?_eq_none_iff {b : Body} : b.kind? = none ↔ b = .plain := by
  cases b <;> simp [Body.kind?]

namespace Heap

variable {h h₁ h₂ : Heap} {cls a b v : Value} {way : List Value}

/-- Of two things on a way up, one is on the way up from the other. -/
theorem Climbs.total (hway : h.Climbs v way) (ha : a ∈ way) (hb : b ∈ way) :
    (∃ rest, h.Climbs a rest ∧ b ∈ rest) ∨ ∃ rest, h.Climbs b rest ∧ a ∈ rest := by
  obtain ⟨fromA, hfromA, hsuffixA⟩ := hway.suffix ha
  obtain ⟨fromB, hfromB, hsuffixB⟩ := hway.suffix hb
  obtain ⟨aboveA, hheadA⟩ := hfromA.exists_cons
  obtain ⟨aboveB, hheadB⟩ := hfromB.exists_cons
  rcases List.suffix_or_suffix_of_suffix hsuffixA hsuffixB with hle | hle
  · exact .inr ⟨fromB, hfromB, hle.subset (hheadA ▸ List.mem_cons_self)⟩
  · exact .inl ⟨fromA, hfromA, hle.subset (hheadB ▸ List.mem_cons_self)⟩

/-- The way up from a core class is the one on which it is listed, at every moment. -/
theorem Develops.ancestors_core (hdevelops : Machine.boot.heap.Develops h) (c : CoreClass) :
    h.ancestors c.value = (c.chain CoreClass.all.length).map CoreClass.value := by
  have hfrom : Develops ⟨Machine.coreSlots⟩ h := Machine.boot_develops.trans hdevelops
  rw [Machine.coreSlots_founded.ancestors_eq Machine.coreSlots_closed hfrom
    (Machine.coreSlots_coreStanding.within c)]
  exact Machine.coreSlots_coreStanding.chain _ c

/-- Among the classes that stand for kinds, only `Module` is above another one, which is `Class`. -/
theorem kindClasses_apart {c d : CoreClass} (hc : c ∈ Methods.kindClasses)
    (hd : d ∈ Methods.kindClasses) (habove : d ∈ c.chain CoreClass.all.length) :
    d = c ∨ c = .classClass ∧ d = .moduleClass := by
  have hall : ∀ c ∈ Methods.kindClasses, ∀ d ∈ Methods.kindClasses,
      d ∈ c.chain CoreClass.all.length → d = c ∨ c = .classClass ∧ d = .moduleClass := by
    decide +kernel
  exact hall c hc d hd habove

/-- New objects are plain where no class that stands for a kind is above. -/
theorem newKind?_eq_none_iff :
    Methods.newKind? h cls = none ↔
      ∀ c ∈ Methods.kindClasses, h.isSubclass cls c.value = false := by
  unfold Methods.newKind?
  simp only [List.findSome?_eq_none_iff, List.find?_eq_none, beq_iff_eq]
  constructor
  · intro hnone c hc
    rw [Bool.eq_false_iff, Ne, isSubclass_iff]
    exact fun hmem => hnone _ hmem c hc rfl
  · intro hnone ancestor hmem c hc heq
    have hbelow : h.isSubclass cls c.value = true := isSubclass_iff.mpr (heq ▸ hmem)
    rw [hnone c hc] at hbelow
    cases hbelow

/-- The kind of new objects is that of a class above. -/
theorem isSubclass_of_newKind? {c : CoreClass} (hkind : Methods.newKind? h cls = some c) :
    c ∈ Methods.kindClasses ∧ h.isSubclass cls c.value = true := by
  obtain ⟨ancestor, hmem, hfound⟩ := List.exists_of_findSome?_eq_some hkind
  have hsame : (c.value == ancestor) = true :=
    List.find?_some (p := fun c : CoreClass => c.value == ancestor) hfound
  obtain rfl : c.value = ancestor := beq_iff_eq.mp hsame
  exact ⟨List.mem_of_find?_eq_some hfound, isSubclass_iff.mpr hmem⟩

/-- **Below a class that stands for a kind, new objects are of that kind**, if it is not `Module` or
`Class`: no other class that stands for a kind is on its way up, and so none is nearer. -/
theorem newKind?_eq_some_iff (hdevelops : Machine.boot.heap.Develops h) {c : CoreClass}
    (hc : c ∈ Methods.kindClasses) (hclass : c ≠ .classClass) (hmodule : c ≠ .moduleClass) :
    Methods.newKind? h cls = some c ↔ h.isSubclass cls c.value = true := by
  refine ⟨fun hkind => (isSubclass_of_newKind? hkind).2, fun hbelow => ?_⟩
  cases hkind : Methods.newKind? h cls with
  | none =>
      rw [newKind?_eq_none_iff.mp hkind c hc] at hbelow
      cases hbelow
  | some d =>
      have hfounded : h.Founded :=
        (Machine.boot_develops.trans hdevelops).founded Machine.coreSlots_founded
      have hlisted : ∀ {k k' : CoreClass} {rest : List Value}, h.Climbs k.value rest →
          k'.value ∈ rest → k' ∈ k.chain CoreClass.all.length := by
        intro k k' rest hrest hmem
        obtain rfl := (hfounded.climbs_ancestors k.value).unique hrest
        rw [hdevelops.ancestors_core, List.mem_map] at hmem
        obtain ⟨k'', hk'', heq⟩ := hmem
        obtain rfl := CoreClass.value_inj.mp heq
        exact hk''
      obtain ⟨hd, habove⟩ := isSubclass_of_newKind? hkind
      rcases (hfounded.climbs_ancestors cls).total (isSubclass_iff.mp hbelow)
        (isSubclass_iff.mp habove) with ⟨rest, hrest, hmem⟩ | ⟨rest, hrest, hmem⟩
      · rcases kindClasses_apart hc hd (hlisted hrest hmem) with rfl | ⟨hsame, -⟩
        · rfl
        · exact absurd hsame hclass
      · rcases kindClasses_apart hd hc (hlisted hrest hmem) with rfl | ⟨-, hsame⟩
        · rfl
        · exact absurd hsame hmodule

/-! ### Objects and their classes -/

/-- The contents of the object are of the kind that goes with its class, which is known. -/
structure Suits (h : Heap) (slot : Slot) : Prop where
  known : h.Knows slot.cls
  kind : Methods.newKind? h slot.cls = slot.body.kind?
  /-- Numbers, procs, classes and modules are of the core class itself. -/
  itself : ∀ c ∈ [CoreClass.float, .integer, .procClass, .classClass, .moduleClass],
    slot.body.kind? = some c → slot.cls = c.value

/-- An object is of every heap's making that is of a class of numbers, procs, classes or modules. -/
theorem suits_itself {b : Body} {c : CoreClass} (hknown : h.Knows c.value)
    (hc : c ∈ Methods.kindClasses) (hkind : b.kind? = some c) : h.Suits ⟨c.value, b⟩ where
  known := hknown
  kind := (h.newKind?_value hc).trans hkind.symm
  itself d _ hd := by
    rw [Option.some.inj (hkind.symm.trans hd)]

/-- Contents of a kind that may be of a class below suit a class whose new objects are of that kind. -/
theorem suits_below {b : Body} (hknown : h.Knows cls) (hkind : Methods.newKind? h cls = b.kind?)
    (hother : ∀ c ∈ [CoreClass.float, .integer, .procClass, .classClass, .moduleClass],
      b.kind? ≠ some c) : h.Suits ⟨cls, b⟩ where
  known := hknown
  kind := hkind
  itself c hc hb := absurd hb (hother c hc)

/-- **What an object is made with suits its class.** -/
theorem Fits.suits {b : Body} (hfits : h.Fits cls b) (hknown : h.Knows cls) : h.Suits ⟨cls, b⟩ := by
  cases b with
  | float =>
      obtain rfl := hfits
      exact suits_itself hknown (by decide) rfl
  | bignum =>
      obtain ⟨rfl, -⟩ := hfits
      exact suits_itself hknown (by decide) rfl
  | proc =>
      obtain rfl := hfits
      exact suits_itself hknown (by decide) rfl
  | ofModule data =>
      obtain ⟨rfl, -⟩ := hfits
      refine suits_itself (c := if data.isClass then .classClass else .moduleClass) hknown ?_ rfl
      split <;> decide
  | hash => exact suits_below hknown hfits.1 (by simp [Body.kind?])
  | string | array | exception | plain => exact suits_below hknown hfits (by simp [Body.kind?])

namespace Suits

variable {body body' : Body}

/-- What the contents of an object become suits its class as they did. -/
theorem becomes (hsuits : h.Suits ⟨cls, body⟩) (hbecomes : body.Becomes body') :
    h.Suits ⟨cls, body'⟩ where
  known := hsuits.known
  kind := hsuits.kind.trans hbecomes.kind?.symm
  itself c hc hkind := hsuits.itself c hc (hbecomes.kind?.symm.trans hkind)

/-- The way up from the class does not change, and so its kind goes on being that of the contents. -/
theorem later {slot : Slot} (hsuits : h.Suits slot) (hfounded : h.Founded) (hclosed : h.Closed)
    (hdevelops : h.Develops h₁) : h₁.Suits slot where
  known := Handled.mono (a := slot.cls) hdevelops.size_le hsuits.known
  kind := by
    rw [← hsuits.kind]
    unfold Methods.newKind?
    rw [hfounded.ancestors_eq hclosed hdevelops hsuits.known]
  itself := hsuits.itself

end Suits

/-- All objects suit their classes. -/
def Suited (h : Heap) : Prop :=
  h.Each fun _ slot => h.Suits slot

/-- **Every act leaves objects with contents that suit their classes.** -/
theorem Act.suited (hact : h.Act h₁) (hfounded : h.Founded) (hclosed : h.Closed)
    (hsuited : h.Suited) : h₁.Suited := by
  have hkept : h.Each fun _ slot => h₁.Suits slot := fun place slot hslot =>
    (hsuited place slot hslot).later hfounded hclosed (.act hact)
  rcases hact.adds with hsize | ⟨cls, b, hfits, ⟨hcls, -⟩, hevolves, hsize⟩
  · exact hkept.of_size (fun hb hbecomes => hb.becomes hbecomes) hact.evolves hsize
  · have hnew : h₁.Suits ⟨cls, b⟩ := (hfits.suits hcls).later hfounded hclosed (.act hact)
    exact Each.of_size (Each.alloc hkept hnew) (fun hb hbecomes => hb.becomes hbecomes) hevolves hsize

/-- Objects go on suiting their classes over every development. -/
theorem Develops.suited (hdevelops : h.Develops h₁) (hfounded : h.Founded) (hclosed : h.Closed)
    (hsuited : h.Suited) : h₁.Suited := by
  induction hdevelops with
  | refl => exact hsuited
  | tail before last ih =>
      exact last.suited (Develops.founded before hfounded) (Develops.closed before hclosed) ih

/-! ### What is added to objects -/

/-- The word is that of a slot in which there is an array. -/
def HoldsArray (h : Heap) (v : Value) : Prop :=
  ∃ place slot items, v = Value.ofSlot place ∧ h.slots[place]? = some slot ∧ slot.body = .array items

/-- Where there is an array there is one later. -/
theorem HoldsArray.of_evolves (harray : h.HoldsArray v) (hevolves : h.Evolves h₁) :
    h₁.HoldsArray v := by
  obtain ⟨place, slot, items, rfl, hslot, hbody⟩ := harray
  obtain ⟨slot', hslot', -, hbecomes⟩ := hevolves place slot hslot
  rw [hbody] at hbecomes
  generalize hbody' : slot'.body = b' at hbecomes
  cases hbecomes with
  | same => exact ⟨place, slot', items, rfl, hslot', hbody'⟩
  | array _ items' => exact ⟨place, slot', items', rfl, hslot', hbody'⟩

/-- No slot has the word of nil. -/
theorem HoldsArray.ne_nil (harray : h.HoldsArray v) : v ≠ Value.nil := by
  obtain ⟨place, -, -, rfl, -⟩ := harray
  intro hnil
  have hword : (Value.ofSlot place).word.toNat % 8 = 0 := by
    simp only [Value.ofSlot, Value.ofWord, Value.heapBase, UInt64.toNat_ofNat']
    omega
  rw [hnil] at hword
  exact absurd hword (by decide)

/-- The type of what is there is that of an array, if the words for the objects suffice. -/
theorem HoldsArray.typeOf (harray : h.HoldsArray v) (hroom : h.HasRoom 0) : h.typeOf v = .array := by
  obtain ⟨place, slot, items, rfl, hslot, hbody⟩ := harray
  have hlt : place < h.slots.size := (Array.getElem?_eq_some_iff.mp hslot).1
  have hplace : (Value.ofSlot place).slot? = some place := by
    unfold HasRoom at hroom
    exact Value.slot?_ofSlot (by omega)
  have hfound : h.body? (Value.ofSlot place) = some (.array items) := by
    rw [body?_of_place hplace, hslot, Option.map_some, hbody]
  exact typeOf_of_body? hfound

end Heap

/-- What the contents of an object can have become in the heap, if nothing was taken from them. -/
inductive Body.Grows (h : Heap) : Body → Body → Prop
  | same (b : Body) : Grows h b b
  | array (items more : List Value) : Grows h (.array items) (.array (items ++ more))
  | hash {pairs pairs' : List (Value × Value)} (hkeys : pairs.map Prod.fst <+: pairs'.map Prod.fst) :
      Grows h (.hash pairs) (.hash pairs')
  | module {data data' : ModuleData} (hsame : Heap.SameModule data data') :
      Grows h (.ofModule data) (.ofModule data')
  /-- An exception without a backtrace is given one. -/
  | traced (message : Value) {trace : Value} (harray : h.HoldsArray trace) :
      Grows h (.exception message Value.nil) (.exception message trace)

namespace Body.Grows

variable {h h₁ : Heap} {b b₁ b₂ : Body}

/-- A backtrace that is an array in one heap is one in a later heap. -/
theorem of_evolves (hgrows : b.Grows h b₁) (hevolves : h.Evolves h₁) : b.Grows h₁ b₁ := by
  cases hgrows with
  | same => exact .same b
  | array items more => exact .array items more
  | hash hkeys => exact .hash hkeys
  | module hsame => exact .module hsame
  | traced message harray => exact .traced message (harray.of_evolves hevolves)

/-- Nothing is taken away in two steps if nothing is in each. -/
theorem trans (hfirst : b.Grows h b₁) (hlater : b₁.Grows h b₂) : b.Grows h b₂ := by
  cases hfirst with
  | same => exact hlater
  | array items more =>
      cases hlater with
      | same => exact .array items more
      | array _ rest =>
          rw [List.append_assoc]
          exact .array items (more ++ rest)
  | hash hkeys =>
      cases hlater with
      | same => exact .hash hkeys
      | hash hkeys' => exact .hash (hkeys.trans hkeys')
  | module hsame =>
      cases hlater with
      | same => exact .module hsame
      | module hsame' => exact .module (hsame.trans hsame')
  | traced message harray =>
      -- A backtrace that was given is not nil, and is not given again.
      generalize hb₁ : Body.exception message _ = b₁ at hlater
      cases hlater with
      | same =>
          subst hb₁
          exact .traced message harray
      | traced =>
          cases hb₁
          exact absurd rfl harray.ne_nil
      | array | hash | module => cases hb₁

/-- Contents that grow stay of their kind. -/
theorem kind? (hgrows : b.Grows h b₁) : b₁.kind? = b.kind? := by
  cases hgrows with
  | same | array | hash | traced => rfl
  | module hsame => simp only [Body.kind?, hsame.isClass]

end Body.Grows

namespace Heap

variable {h h₁ h₂ : Heap} {cls v : Value} {b : Body}

/-- Every object is in its place still, of the same class, and nothing was taken from it. -/
def Grows (h h' : Heap) : Prop :=
  ∀ (place : Nat) (slot : Slot), h.slots[place]? = some slot →
    ∃ slot' : Slot, h'.slots[place]? = some slot' ∧ slot'.cls = slot.cls ∧ slot.body.Grows h' slot'.body

namespace Grows

/-- Nothing is taken from the objects of a heap as it is. -/
theorem refl (h : Heap) : h.Grows h :=
  fun _ slot hslot => ⟨slot, hslot, rfl, .same slot.body⟩

/-- Nothing is taken from objects in two stretches if nothing is in each. -/
theorem trans (hfirst : h.Grows h₁) (hlater : h₁.Grows h₂) (hevolves : h₁.Evolves h₂) :
    h.Grows h₂ := by
  intro place slot hslot
  obtain ⟨slot₁, hslot₁, hcls₁, hbody₁⟩ := hfirst place slot hslot
  obtain ⟨slot₂, hslot₂, hcls₂, hbody₂⟩ := hlater place slot₁ hslot₁
  exact ⟨slot₂, hslot₂, hcls₂.trans hcls₁, (hbody₁.of_evolves hevolves).trans hbody₂⟩

/-- A new object takes nothing from the others. -/
theorem alloc (h : Heap) (cls : Value) (b : Body) : h.Grows (h.alloc cls b).2 := by
  intro place slot hslot
  have hlt := (Array.getElem?_eq_some_iff.mp hslot).1
  have hkept : (h.slots.push ⟨cls, b⟩)[place]? = some slot := by
    rw [Array.getElem?_push_lt hlt, ← hslot]
    exact (Array.getElem?_eq_getElem hlt).symm
  exact ⟨slot, hkept, rfl, .same slot.body⟩

/-- Nothing is taken from the objects if nothing is taken from the one that gets other contents. -/
theorem setBody (hnew : ∀ old, h.body? v = some old → old.Grows (h.setBody v b) b) :
    h.Grows (h.setBody v b) := by
  intro place slot hslot
  have hlt : place < (h.setBody v b).slots.size := by
    rw [size_setBody]
    exact (Array.getElem?_eq_some_iff.mp hslot).1
  have hslot' := Array.getElem?_eq_getElem hlt
  obtain ⟨old, hold, hcls, hbody⟩ := getElem?_setBody_cases hslot'
  obtain rfl := Option.some.inj (hslot.symm.trans hold)
  refine ⟨_, hslot', hcls, ?_⟩
  rcases hbody with hsame | ⟨hplace, hchanged⟩
  · rw [hsame]
    exact .same slot.body
  · rw [hchanged]
    refine hnew _ ?_
    rw [body?_of_place hplace, hslot, Option.map_some]

/-- A module that stays the same one may get any constants. -/
theorem changeModule (h : Heap) (v : Value) {change : ModuleData → ModuleData}
    (hchange : ∀ data, SameModule data (change data)) : h.Grows (h.changeModule v change) := by
  unfold Heap.changeModule
  split
  · rename_i data hdata
    refine setBody fun old hold => ?_
    rw [module?_eq_some_iff.mp hdata] at hold
    cases hold
    exact .module (hchange data)
  · exact refl h

end Grows

/-- **Every act adds to objects and takes nothing from them.** -/
theorem Act.grows (hact : h.Act h₁) : h.Grows h₁ := by
  cases hact with
  | alloc => exact .alloc h _ _
  | pushItems array =>
      unfold Methods.pushItems
      split
      · rename_i old hitems
        refine .setBody fun found hfound => ?_
        rw [body?_of_items? hitems] at hfound
        cases hfound
        exact .array old _
      · exact .refl h
  | @storeInHash m hash key value =>
      cases hpairs : m.heap.pairs? hash with
      | none =>
          unfold Machine.storeInHash
          rw [hpairs]
          exact .refl m.heap
      | some pairs =>
          rw [Machine.storeInHash_eq hpairs]
          refine .setBody fun found hfound => ?_
          rw [body?_of_pairs? hpairs] at hfound
          cases hfound
          refine .hash ?_
          rw [m.keys_storePair]
          split
          · exact List.prefix_rfl
          · exact List.prefix_append _ _
  | setConstant | setClassVar => exact .changeModule h _ fun _ => ⟨rfl, rfl, rfl⟩
  | @trace _ exception message lines hbody =>
      have hchanges : (h.alloc CoreClass.array.value (.array lines)).2.Evolves
          ((h.alloc CoreClass.array.value (.array lines)).2.setBody exception
            (.exception message (h.alloc CoreClass.array.value (.array lines)).1)) := by
        refine .setBody fun old hold => ?_
        rw [body?_alloc_of_some hbody] at hold
        cases hold
        exact .exception _ _ _
      refine (Grows.alloc h _ _).trans (.setBody fun old hold => ?_) hchanges
      rw [body?_alloc_of_some hbody] at hold
      cases hold
      have hmade : (h.alloc CoreClass.array.value (.array lines)).2.HoldsArray
          (h.alloc CoreClass.array.value (.array lines)).1 :=
        ⟨h.slots.size, _, lines, rfl, Array.getElem?_push_size, rfl⟩
      exact .traced message (hmade.of_evolves hchanges)

/-- No development takes anything from an object. -/
theorem Develops.grows (hdevelops : h.Develops h₁) : h.Grows h₁ := by
  induction hdevelops with
  | refl => exact .refl h
  | tail _ last ih => exact ih.trans last.grows last.evolves

end Heap

/-! ### Objects keep what they are -/

namespace Heap

variable {h later : Heap}

/-- The objects of a heap are in the later one, of the same classes and with contents of the same kinds.
-/
structure KeepsObjects (h later : Heap) : Prop where
  /-- Every object keeps its class and the kind of its contents. -/
  kind : ∀ v slot, h.slot? v = some slot → ∃ slot', later.slot? v = some slot' ∧
    slot'.cls = slot.cls ∧ slot'.body.kind? = slot.body.kind?
  /-- Numbers, strings, procs and plain objects stay what they are. -/
  fixed : ∀ v b, h.body? v = some b →
    b.kind? ∈ [some .float, some .integer, some .string, some .procClass, none] →
      later.body? v = some b
  /-- Items are added at the end of an array. -/
  items : ∀ v items, h.items? v = some items → ∃ more, later.items? v = some (items ++ more)
  /-- The keys of a hash stay, in their order. -/
  keys : ∀ v pairs, h.pairs? v = some pairs → ∃ pairs', later.pairs? v = some pairs' ∧
    pairs.map Prod.fst <+: pairs'.map Prod.fst
  /-- A class keeps its superclass, and goes on being a class. -/
  module : ∀ v data, h.module? v = some data → ∃ data', later.module? v = some data' ∧
    SameModule data data'
  /-- A backtrace that is there stays; where there was none an array may have come. -/
  trace : ∀ v message trace, h.body? v = some (.exception message trace) →
    ∃ trace', later.body? v = some (.exception message trace') ∧
      (trace' = trace ∨ trace = Value.nil ∧ trace' ≠ Value.nil ∧ later.HoldsArray trace' ∧
        (later.HasRoom 0 → later.typeOf trace' = .array))

/-- An object has grown to the contents that it has later. -/
theorem Grows.body? (hgrows : h.Grows later) {v : Value} {b : Body} (hbody : h.body? v = some b) :
    ∃ b', later.body? v = some b' ∧ b.Grows later b' := by
  obtain ⟨place, slot, hplace, hslot, rfl⟩ := exists_place hbody
  obtain ⟨slot', hslot', -, hgrown⟩ := hgrows place slot hslot
  refine ⟨slot'.body, ?_, hgrown⟩
  rw [body?_of_place hplace, hslot', Option.map_some]

/-- Nothing is taken from objects that only grow. -/
theorem Grows.keepsObjects (hgrows : h.Grows later) : h.KeepsObjects later where
  kind v slot hslot := by
    obtain ⟨place, hplace, hget⟩ := Option.bind_eq_some_iff.mp hslot
    obtain ⟨slot', hslot', hcls, hgrown⟩ := hgrows place slot hget
    exact ⟨slot', Option.bind_eq_some_iff.mpr ⟨place, hplace, hslot'⟩, hcls, hgrown.kind?⟩
  fixed v b hbody hkind := by
    obtain ⟨b', hbody', hgrown⟩ := hgrows.body? hbody
    cases hgrown with
    | same => exact hbody'
    | array | hash | traced => simp [Body.kind?] at hkind
    | module =>
        simp only [Body.kind?] at hkind
        split at hkind <;> simp at hkind
  items v items hitems := by
    obtain ⟨b', hbody', hgrown⟩ := hgrows.body? (body?_of_items? hitems)
    cases hgrown with
    | same => exact ⟨[], by rw [items?_of_body? hbody', List.append_nil]⟩
    | array _ more => exact ⟨more, items?_of_body? hbody'⟩
  keys v pairs hpairs := by
    obtain ⟨b', hbody', hgrown⟩ := hgrows.body? (body?_of_pairs? hpairs)
    cases hgrown with
    | same => exact ⟨pairs, pairs?_of_body? hbody', List.prefix_rfl⟩
    | hash hkeys => exact ⟨_, pairs?_of_body? hbody', hkeys⟩
  module v data hdata := by
    obtain ⟨b', hbody', hgrown⟩ := hgrows.body? (module?_eq_some_iff.mp hdata)
    cases hgrown with
    | same => exact ⟨data, module?_eq_some_iff.mpr hbody', rfl, rfl, rfl⟩
    | module hsame => exact ⟨_, module?_eq_some_iff.mpr hbody', hsame⟩
  trace v message trace hbody := by
    obtain ⟨b', hbody', hgrown⟩ := hgrows.body? hbody
    cases hgrown with
    | same => exact ⟨trace, hbody', .inl rfl⟩
    | @traced _ trace' harray =>
        exact ⟨trace', hbody', .inr ⟨rfl, harray.ne_nil, harray, harray.typeOf⟩⟩

/-- What the class of an object that suits it says of the contents. -/
theorem Suits.kind?_iff (hdevelops : Machine.boot.heap.Develops h) {slot : Slot} (hsuits : h.Suits slot) :
    (∀ c ∈ [CoreClass.string, .array, .hash, .exception],
      slot.body.kind? = some c ↔ h.isSubclass slot.cls c.value = true) ∧
    (∀ c ∈ [CoreClass.float, .integer, .procClass, .classClass, .moduleClass],
      slot.body.kind? = some c ↔ slot.cls = c.value) ∧
    (slot.body = .plain ↔ ∀ c ∈ Methods.kindClasses, h.isSubclass slot.cls c.value = false) := by
  refine ⟨fun c hc => ?_, fun c hc => ⟨hsuits.itself c hc, fun hcls => ?_⟩, ?_⟩
  · have hbelow : ∀ d ∈ [CoreClass.string, .array, .hash, .exception],
        d ∈ Methods.kindClasses ∧ d ≠ .classClass ∧ d ≠ .moduleClass := by
      decide
    obtain ⟨hstands, hclass, hmodule⟩ := hbelow c hc
    rw [← hsuits.kind]
    exact newKind?_eq_some_iff hdevelops hstands hclass hmodule
  · have hstands : ∀ d ∈ [CoreClass.float, .integer, .procClass, .classClass, .moduleClass],
        d ∈ Methods.kindClasses := by
      decide
    rw [← hsuits.kind, hcls]
    exact h.newKind?_value (hstands c hc)
  · rw [← Body.kind?_eq_none_iff, ← hsuits.kind]
    exact newKind?_eq_none_iff

end Heap

/-! ### A fresh interpreter -/

/-- The core classes are classes, and `Kernel` is a module. -/
theorem Machine.coreSlots_suited : Heap.Suited ⟨coreSlots⟩ := by
  intro place slot hslot
  obtain ⟨c, -, rfl⟩ := exists_core_of_getElem? hslot
  refine Heap.suits_itself (coreSlots_coreStanding.within _) ?_ rfl
  split <;> decide

namespace World

variable {σ : Type} [Handled σ] {w u : World σ}

/-- **The contents of an object are of the kind that its class says, and nothing is taken from them**, at
every moment of what honest programs do, one after another, out of a fresh interpreter.

The contents are those of a string, an array, a hash or an exception just in case the class is the one of
these or below it; those of a float, an integer, a proc, a class or a plain module just in case the class
is `Float`, `Integer`, `Proc`, `Class` or `Module`; and an object is plain just in case its class is
below none of those that stand for a kind.

At every later moment an object has the class and the kind of contents that it had.  Strings and numbers
never change, arrays get more items at the end, hashes lose no keys, classes have the same superclass,
and an exception's backtrace is what it was, or was nil and is an array now; so it changes once at most.
-/
theorem objects_keep_kinds (harises : w.Arises) (hmoment : w.machine.heap.Develops u.machine.heap) :
    (∀ fuel role (program : Program σ role), program.Honest w.machine.heap.slots.size →
      w.machine.heap.Develops (Outcome.world (program.run (.ofFuel fuel) w)).machine.heap) ∧
    (∀ (place : Nat) (slot : Slot), u.machine.heap.slots[place]? = some slot →
      (∀ c ∈ [CoreClass.string, .array, .hash, .exception],
        slot.body.kind? = some c ↔ u.machine.heap.isSubclass slot.cls c.value = true) ∧
      (∀ c ∈ [CoreClass.float, .integer, .procClass, .classClass, .moduleClass],
        slot.body.kind? = some c ↔ slot.cls = c.value) ∧
      (slot.body = .plain ↔
        ∀ c ∈ Methods.kindClasses, u.machine.heap.isSubclass slot.cls c.value = false)) ∧
    ∀ later, u.machine.heap.Develops later → u.machine.heap.KeepsObjects later := by
  have hdevelops : Machine.boot.heap.Develops u.machine.heap := harises.develops.trans hmoment
  have hfrom : Heap.Develops ⟨Machine.coreSlots⟩ u.machine.heap :=
    Machine.boot_develops.trans hdevelops
  have hsuited : u.machine.heap.Suited :=
    hfrom.suited Machine.coreSlots_founded Machine.coreSlots_closed Machine.coreSlots_suited
  exact ⟨fun fuel role program hprogram => (harises.sound.run fuel hprogram).develops,
    fun place slot hslot => (hsuited place slot hslot).kind?_iff hdevelops,
    fun later hlater => hlater.grows.keepsObjects⟩

/-- A program that makes an array of nil. -/
def arrayMaking : Program Unit .main :=
  .probe (.make (.array [Value.nil])) fun _ => .done ()

/-- A program that adds an item to the first object that was made. -/
def itemPushing : Program Unit .main :=
  .ask (.call Machine.firstMade "push" [Value.ofBool true]) fun _ => .done ()

/-- The world in which the one program was run in a fresh interpreter. -/
def withArray : World Unit :=
  Outcome.world (arrayMaking.run (.ofFuel 0) { memory := () })

/-- The world in which the other program was run after that. -/
def withItem : World Unit :=
  Outcome.world (itemPushing.run (.ofFuel 3) withArray)

/-- Programs make an array in a fresh interpreter, and add an item.  The object in the new place is of a
class below `Array`, because it is an array, and it is not plain; and after the second program its items
begin with those that it was made with. -/
theorem objects_keep_kinds_array :
    ({ memory := () } : World Unit).Arises ∧ withArray.Arises ∧
      withArray.machine.heap.Develops withItem.machine.heap ∧
      (∃ slot, withArray.machine.heap.slots[CoreClass.all.length]? = some slot ∧
        slot.body = .array [Value.nil] ∧
        withArray.machine.heap.isSubclass slot.cls CoreClass.array.value = true ∧
        ¬ ∀ c ∈ Methods.kindClasses,
          withArray.machine.heap.isSubclass slot.cls c.value = false) ∧
      withItem.machine.heap.items? Machine.firstMade = some [Value.nil, Value.ofBool true] ∧
      ∃ more, withItem.machine.heap.items? Machine.firstMade = some (Value.nil :: more) := by
  have hran : withArray.machine.heap.items? Machine.firstMade = some [Value.nil] ∧
      withItem.machine.heap.items? Machine.firstMade = some [Value.nil, Value.ofBool true] ∧
      withArray.machine.heap.slots.size = CoreClass.all.length + 1 := by
    decide +kernel
  obtain ⟨hitems, hpushed, hsize⟩ := hran
  have hmaking : arrayMaking.Honest ({ memory := () } : World Unit).machine.heap.slots.size :=
    ⟨within_cons (within_nil _) (within_of_eq_nil rfl), fun _ _ _ _ => trivial⟩
  have hpushing : itemPushing.Honest withArray.machine.heap.slots.size := by
    have harray : Within withArray.machine.heap.slots.size Machine.firstMade := by
      rintro index hindex
      obtain rfl : CoreClass.all.length = index := Option.some.inj hindex
      omega
    exact ⟨within_cons harray (within_cons (within_ofBool true _) (within_of_eq_nil rfl)),
      fun _ _ _ _ => trivial⟩
  have harises : withArray.Arises := .run arises_fresh 0 hmaking
  obtain ⟨hruns, hkinds, hkept⟩ := objects_keep_kinds harises (u := withArray) (.refl _)
  have hlater : withArray.machine.heap.Develops withItem.machine.heap := by
    rw [withItem]
    exact hruns 3 .main itemPushing hpushing
  obtain ⟨place, slot, hplace, hslot, hbody⟩ := Heap.exists_place (Heap.body?_of_items? hitems)
  obtain rfl : CoreClass.all.length = place := Option.some.inj hplace
  obtain ⟨hinstances, -, hplain⟩ := hkinds _ slot hslot
  have hbelow := (hinstances .array (by decide)).mp (by rw [hbody]; rfl)
  refine ⟨arises_fresh, harises, hlater, ⟨slot, hslot, hbody, hbelow, fun hnone => ?_⟩, hpushed,
    (hkept _ hlater).items _ _ hitems⟩
  rw [hplain.mpr hnone] at hbody
  cases hbody

end World

end EmbeddedRuby
