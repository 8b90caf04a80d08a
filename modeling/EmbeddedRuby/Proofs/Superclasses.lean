import EmbeddedRuby.Proofs.CoreClasses

/-!
# Classes below classes

A class **stands** if its superclass is a class too, one that was there before it (`Heap.Stands`).
The core classes stand, with the exception of `Object`, and a class that is opened by a script is
put below a class; but a class without a name may be put below anything (`Heap.NamedStand`).

Classes stay what they are, so what keeps this up is that a class that is new stands too if it has a
name (`Heap.NewStand`, `Heap.NamedStand.of_evolves`).
-/

namespace EmbeddedRuby

namespace Heap

variable {h h' : Heap} {v parent : Value}

/-- The object is a class. -/
def IsClass (h : Heap) (v : Value) : Prop :=
  ∃ data, h.module? v = some data ∧ data.isClass = true

/-- What is looked up as a class is one. -/
theorem any_isClass_iff : (h.module? v).any ModuleData.isClass = true ↔ h.IsClass v := by
  cases hdata : h.module? v <;> simp [IsClass, hdata]

/-- The superclass of the class is a class that was there before it. -/
def Stands (h : Heap) (cls : Value) : Prop :=
  ∃ data parent place below, h.module? cls = some data ∧ data.superclass = some parent ∧
    h.IsClass parent ∧ cls.slot? = some place ∧ parent.slot? = some below ∧ below < place

/-- Every class but `Object` stands. -/
def AllStand (h : Heap) : Prop :=
  ∀ cls, h.IsClass cls → cls ≠ CoreClass.object.value → h.Stands cls

/-- Every class but `Object` has a superclass, and if it has a name it stands. -/
def NamedStand (h : Heap) : Prop :=
  ∀ cls data, h.module? cls = some data → data.isClass = true → cls ≠ CoreClass.object.value →
    data.superclass.isSome = true ∧ (data.name.isSome = true → h.Stands cls)

/-- If every class stands, those with names do. -/
theorem AllStand.namedStand (hall : h.AllStand) : h.NamedStand := by
  intro cls data hdata hclass hroot
  have hstands := hall cls ⟨data, hdata, hclass⟩ hroot
  refine ⟨?_, fun _ => hstands⟩
  obtain ⟨data', parent, -, -, hdata', hsuper, -⟩ := hstands
  obtain rfl : data' = data := Option.some.inj (hdata'.symm.trans hdata)
  rw [hsuper, Option.isSome_some]

/-- As classes with names stand, it comes down to those without. -/
theorem NamedStand.allStand_iff (hnamed : h.NamedStand) :
    h.AllStand ↔ ∀ cls data, h.module? cls = some data → data.isClass = true → data.name = none →
      cls ≠ CoreClass.object.value → h.Stands cls := by
  constructor
  · intro hall cls data hdata hclass _ hroot
    exact hall cls ⟨data, hdata, hclass⟩ hroot
  · intro hnameless cls hisClass hroot
    obtain ⟨data, hdata, hclass⟩ := hisClass
    cases hname : data.name with
    | none => exact hnameless cls data hdata hclass hname hroot
    | some name =>
        have hstands := (hnamed cls data hdata hclass hroot).2
        exact hstands (by rw [hname, Option.isSome_some])

/-! ### Objects and their places -/

/-- The contents of an object are those of the slot in its place. -/
theorem body?_of_place {place : Nat} (hplace : v.slot? = some place) :
    h.body? v = h.slots[place]?.map Slot.body := by
  unfold body? slot?
  rw [hplace, Option.bind_some]

/-- An object that has contents has a place, and a slot is there. -/
theorem exists_place {b : Body} (hb : h.body? v = some b) :
    ∃ place slot, v.slot? = some place ∧ h.slots[place]? = some slot ∧ slot.body = b := by
  obtain ⟨slot, hslot, hbody⟩ := Option.map_eq_some_iff.mp hb
  obtain ⟨place, hplace, hget⟩ := Option.bind_eq_some_iff.mp hslot
  exact ⟨place, slot, hplace, hget, hbody⟩

/-- A class has a place among those that are filled. -/
theorem IsClass.exists_place (hclass : h.IsClass v) :
    ∃ place, v.slot? = some place ∧ place < h.slots.size := by
  obtain ⟨data, hdata, -⟩ := hclass
  obtain ⟨place, slot, hplace, hget, -⟩ := Heap.exists_place (module?_eq_some_iff.mp hdata)
  exact ⟨place, hplace, (Array.getElem?_eq_some_iff.mp hget).1⟩

/-! ### Classes stay what they are -/

/-- The same class or module, apart from its constants and class variables. -/
structure SameModule (data data' : ModuleData) : Prop where
  name : data'.name = data.name
  isClass : data'.isClass = data.isClass
  superclass : data'.superclass = data.superclass

/-- Being the same module carries over from one moment to the next. -/
theorem SameModule.trans {data data' data'' : ModuleData} (hfirst : SameModule data data')
    (hlater : SameModule data' data'') : SameModule data data'' :=
  ⟨hlater.name.trans hfirst.name, hlater.isClass.trans hfirst.isClass,
    hlater.superclass.trans hfirst.superclass⟩

/-- A class or module is the same one later. -/
theorem Evolves.sameModule (hevolves : h.Evolves h') {data : ModuleData}
    (hdata : h.module? v = some data) :
    ∃ data', h'.module? v = some data' ∧ SameModule data data' := by
  obtain ⟨b, hb, hbecomes⟩ := hevolves.body? (module?_eq_some_iff.mp hdata)
  cases hbecomes with
  | same => exact ⟨data, module?_eq_some_iff.mpr hb, rfl, rfl, rfl⟩
  | module hname hclass hsuper =>
      exact ⟨_, module?_eq_some_iff.mpr hb, hname, hclass, hsuper⟩

/-- What is a class or module in a place that was filled before was one before. -/
theorem Evolves.module?_before (hevolves : h.Evolves h') {data' : ModuleData} {place : Nat}
    (hdata : h'.module? v = some data') (hplace : v.slot? = some place)
    (hold : place < h.slots.size) :
    ∃ data, h.module? v = some data ∧ SameModule data data' := by
  have hget : h.slots[place]? = some h.slots[place] := Array.getElem?_eq_getElem hold
  obtain ⟨slot', hslot', -, hbecomes⟩ := hevolves place _ hget
  have hbody' := module?_eq_some_iff.mp hdata
  rw [body?_of_place hplace, hslot', Option.map_some, Option.some.injEq] at hbody'
  have hbody : h.body? v = some h.slots[place].body := by
    rw [body?_of_place hplace, hget, Option.map_some]
  rw [hbody'] at hbecomes
  generalize h.slots[place].body = old at hbody hbecomes
  cases hbecomes with
  | same => exact ⟨data', module?_eq_some_iff.mpr hbody, rfl, rfl, rfl⟩
  | module hname hclass hsuper => exact ⟨_, module?_eq_some_iff.mpr hbody, hname, hclass, hsuper⟩

/-- A class stays a class. -/
theorem IsClass.of_evolves (hclass : h.IsClass v) (hevolves : h.Evolves h') : h'.IsClass v := by
  obtain ⟨data, hdata, hkind⟩ := hclass
  obtain ⟨data', hdata', hsame⟩ := hevolves.sameModule hdata
  exact ⟨data', hdata', hsame.isClass.trans hkind⟩

/-- A class that stands goes on standing. -/
theorem Stands.of_evolves (hstands : h.Stands v) (hevolves : h.Evolves h') : h'.Stands v := by
  obtain ⟨data, parent, place, below, hdata, hsuper, hclass, hplace, hbelow, hlt⟩ := hstands
  obtain ⟨data', hdata', hsame⟩ := hevolves.sameModule hdata
  exact ⟨data', parent, place, below, hdata', hsame.superclass.trans hsuper,
    hclass.of_evolves hevolves, hplace, hbelow, hlt⟩

/-- What is a class in a place that was filled before was one before. -/
theorem IsClass.before (hclass : h'.IsClass v) (hevolves : h.Evolves h') {place : Nat}
    (hplace : v.slot? = some place) (hold : place < h.slots.size) : h.IsClass v := by
  obtain ⟨data', hdata', hkind⟩ := hclass
  obtain ⟨data, hdata, hsame⟩ := hevolves.module?_before hdata' hplace hold
  exact ⟨data, hdata, hsame.isClass.symm.trans hkind⟩

/-- A class that stands stood as long as it was there. -/
theorem Stands.before (hstands : h'.Stands v) (hevolves : h.Evolves h') (hclass : h.IsClass v) :
    h.Stands v := by
  obtain ⟨data', parent, place, below, hdata', hsuper, hparent, hplace, hbelow, hlt⟩ := hstands
  obtain ⟨place', hplace', hold⟩ := hclass.exists_place
  obtain rfl : place' = place := Option.some.inj (hplace'.symm.trans hplace)
  obtain ⟨data, hdata, -⟩ := hclass
  obtain ⟨later, hlater, hsame⟩ := hevolves.sameModule hdata
  obtain rfl : later = data' := Option.some.inj (hlater.symm.trans hdata')
  exact ⟨data, parent, place', below, hdata, hsame.superclass.symm.trans hsuper,
    hparent.before hevolves hbelow (Nat.lt_trans hlt hold), hplace, hbelow, hlt⟩

/-- If every class stands later, every class stands now: what is new can be left out. -/
theorem AllStand.before (hall : h'.AllStand) (hevolves : h.Evolves h') : h.AllStand := by
  intro cls hclass hroot
  exact (hall cls (hclass.of_evolves hevolves) hroot).before hevolves hclass

/-- Where no place is added all classes go on standing. -/
theorem AllStand.of_size (hall : h.AllStand) (hevolves : h.Evolves h')
    (hsize : h'.slots.size = h.slots.size) : h'.AllStand := by
  intro cls hclass hroot
  obtain ⟨place, hplace, hlt⟩ := hclass.exists_place
  have hbefore : h.IsClass cls := hclass.before hevolves hplace (hsize ▸ hlt)
  exact (hall cls hbefore hroot).of_evolves hevolves

/-! ### New classes -/

/-- What is new in the second heap, if it is a class, has a superclass, and if it has a name it
stands there. -/
def NewStand (h h' : Heap) : Prop :=
  ∀ cls data, h.module? cls = none → h'.module? cls = some data → data.isClass = true →
    data.superclass.isSome = true ∧ (data.name.isSome = true → h'.Stands cls)

/-- **Only new classes have to be looked after.** -/
theorem NamedStand.of_evolves (hnamed : h.NamedStand) (hevolves : h.Evolves h')
    (hnew : h.NewStand h') : h'.NamedStand := by
  intro cls data' hdata' hclass hroot
  cases hbefore : h.module? cls with
  | none => exact hnew cls data' hbefore hdata' hclass
  | some data =>
      obtain ⟨later, hlater, hsame⟩ := hevolves.sameModule hbefore
      obtain rfl : later = data' := Option.some.inj (hlater.symm.trans hdata')
      obtain ⟨hsuper, hstands⟩ := hnamed cls data hbefore (hsame.isClass ▸ hclass) hroot
      rw [hsame.superclass, hsame.name]
      exact ⟨hsuper, fun hname => (hstands hname).of_evolves hevolves⟩

/-- New classes of two stretches stand, if those of each do. -/
theorem NewStand.trans {h₁ h₂ : Heap} (hfirst : h.NewStand h₁) (hlater : h₁.NewStand h₂)
    (hevolves : h₁.Evolves h₂) : h.NewStand h₂ := by
  intro cls data' hbefore hdata' hclass
  cases hmiddle : h₁.module? cls with
  | none => exact hlater cls data' hmiddle hdata' hclass
  | some data =>
      obtain ⟨later, hfound, hsame⟩ := hevolves.sameModule hmiddle
      obtain rfl : later = data' := Option.some.inj (hfound.symm.trans hdata')
      obtain ⟨hsuper, hstands⟩ := hfirst cls data hbefore hmiddle (hsame.isClass ▸ hclass)
      rw [hsame.superclass, hsame.name]
      exact ⟨hsuper, fun hname => (hstands hname).of_evolves hevolves⟩

/-- Where no place is added nothing is new. -/
theorem NewStand.of_size (hevolves : h.Evolves h') (hsize : h'.slots.size = h.slots.size) :
    h.NewStand h' := by
  intro cls data hbefore hdata
  obtain ⟨place, slot, hplace, hget, -⟩ := exists_place (module?_eq_some_iff.mp hdata)
  have hold : place < h.slots.size := hsize ▸ (Array.getElem?_eq_some_iff.mp hget).1
  obtain ⟨data', hdata', -⟩ := hevolves.module?_before hdata hplace hold
  rw [hbefore] at hdata'
  cases hdata'

/-- Nothing is new where nothing has happened. -/
theorem NewStand.refl (h : Heap) : h.NewStand h :=
  .of_size (.refl h) rfl

/-- What was no class or module before a new object was made is that object. -/
theorem module?_alloc_new {cls : Value} {b : Body} {data : ModuleData}
    (hbefore : h.module? v = none) (hdata : (h.alloc cls b).2.module? v = some data) :
    v.slot? = some h.slots.size ∧ b = .ofModule data := by
  obtain ⟨place, slot, hplace, hget, hbody⟩ := exists_place (module?_eq_some_iff.mp hdata)
  have hpush : (h.slots.push ⟨cls, b⟩)[place]? = some slot := hget
  rw [Array.getElem?_push] at hpush
  split at hpush
  · rename_i hnew
    cases hpush
    exact ⟨hnew ▸ hplace, hbody⟩
  · have hold : h.body? v = some (.ofModule data) := by
      rw [body?_of_place hplace, hpush, Option.map_some, hbody]
    rw [module?_eq_some_iff.mpr hold] at hbefore
    cases hbefore

/-- A new class has a superclass, and if it has a name this is a class. -/
theorem NewStand.alloc (h : Heap) (cls : Value) {b : Body}
    (hput : ∀ data, b = .ofModule data → data.isClass = true → ∃ parent,
      data.superclass = some parent ∧ (data.name.isSome = true → h.IsClass parent)) :
    h.NewStand (h.alloc cls b).2 := by
  intro new data hbefore hdata hclass
  obtain ⟨hplace, hbody⟩ := module?_alloc_new hbefore hdata
  obtain ⟨parent, hparent, hparentClass⟩ := hput data hbody hclass
  rw [hparent]
  refine ⟨rfl, fun hname => ?_⟩
  obtain ⟨below, hbelow, hlt⟩ := (hparentClass hname).exists_place
  exact ⟨data, parent, h.slots.size, below, hdata, hparent,
    (hparentClass hname).of_evolves (.alloc h cls b), hplace, hbelow, hlt⟩

/-- A new object that is no module is no class. -/
theorem NewStand.alloc_other (h : Heap) (cls : Value) {b : Body}
    (hother : ∀ data, b ≠ .ofModule data) :
    h.NewStand (h.alloc cls b).2 :=
  .alloc h cls fun data hdata => absurd hdata (hother data)

/-- An Integer is no class. -/
theorem NewStand.ofInteger (h : Heap) (n : Int) : h.NewStand (h.ofInteger n).2 := by
  unfold Heap.ofInteger
  split
  · exact .refl h
  · exact .alloc_other h _ nofun

/-- Changing the contents of an object adds no place. -/
theorem size_setBody (h : Heap) (v : Value) (b : Body) :
    (h.setBody v b).slots.size = h.slots.size := by
  unfold setBody
  split
  · exact Array.size_modify
  · rfl

/-- Changing a module adds no place. -/
theorem size_changeModule (h : Heap) (v : Value) (change : ModuleData → ModuleData) :
    (h.changeModule v change).slots.size = h.slots.size := by
  unfold changeModule
  split
  · exact h.size_setBody v _
  · rfl

end Heap

/-! ### A fresh interpreter -/

/-- The word of an object of the heap is that of its place. -/
theorem Value.eq_ofSlot {v : Value} {place : Nat} (hplace : v.slot? = some place) :
    v = ofSlot place := by
  unfold slot? at hplace
  split at hplace
  · cases hplace
  · rename_i hword
    cases hplace
    have hnumber : heapBase + (v.word.toNat - heapBase) / 8 * 8 = v.word.toNat := by
      simp only [heapBase] at hword ⊢
      omega
    unfold ofSlot ofWord
    rw [hnumber, UInt64.ofNat_toNat]

namespace CoreClass

/-- What stands in the place of a core class is that class. -/
theorem slot_of_getElem? {place : Nat} {c : CoreClass} (hget : all[place]? = some c) :
    c.slot = place := by
  have hnodup : all.Nodup := by decide
  have hlt : c.slot < all.length := (List.getElem?_eq_some_iff.mp (getElem?_all_slot c)).1
  exact (List.getElem?_inj hlt hnodup).mp ((getElem?_all_slot c).trans hget.symm)

/-- A core class has the place in which it was made. -/
theorem slot?_value (c : CoreClass) : c.value.slot? = some c.slot := by
  cases c <;> decide

/-- Nothing is below the module `Kernel`. -/
theorem superclass?_ne_kernel {c : CoreClass} : c.superclass? ≠ some .kernel := by
  cases c <;> decide

/-- Two of the core classes have nothing above them: `Object`, and `Kernel`, which is a module. -/
theorem superclass?_eq_none_iff {c : CoreClass} :
    c.superclass? = none ↔ c = .object ∨ c = .kernel := by
  cases c <;> decide

end CoreClass

namespace Machine

/-- The core classes are made as they are listed. -/
theorem coreSlots_module? (c : CoreClass) :
    Heap.module? ⟨coreSlots⟩ c.value = some
      { name := some c.name, isClass := c != .kernel,
        superclass := c.superclass?.map CoreClass.value } := by
  cases c <;> rfl

/-- In its place among the objects of a fresh interpreter a core class stands as it is listed. -/
theorem exists_core_of_getElem? {place : Nat} {slot : Slot} (hslot : coreSlots[place]? = some slot) :
    ∃ c : CoreClass, c.slot = place ∧ slot =
      ⟨(if c != .kernel then CoreClass.classClass else CoreClass.moduleClass).value, .ofModule
        { name := some c.name, isClass := c != .kernel
          superclass := c.superclass?.map CoreClass.value }⟩ := by
  have hlist : (CoreClass.all.map _)[place]? = some slot := (List.getElem?_toArray).symm.trans hslot
  rw [List.getElem?_map] at hlist
  obtain ⟨c, hc, rfl⟩ := Option.map_eq_some_iff.mp hlist
  exact ⟨c, CoreClass.slot_of_getElem? hc, rfl⟩

/-- A module among the first objects is a core class. -/
theorem exists_coreClass {v : Value} {data : ModuleData}
    (hdata : Heap.module? ⟨coreSlots⟩ v = some data) : ∃ c : CoreClass, v = c.value := by
  obtain ⟨place, slot, hplace, hget, -⟩ := Heap.exists_place (Heap.module?_eq_some_iff.mp hdata)
  obtain ⟨c, rfl, -⟩ := exists_core_of_getElem? hget
  exact ⟨c, Value.eq_ofSlot hplace⟩

/-- The core classes stand, as each is made after its superclass. -/
theorem coreSlots_allStand : Heap.AllStand ⟨coreSlots⟩ := by
  intro cls hclass hroot
  obtain ⟨data, hdata, hkind⟩ := hclass
  obtain ⟨c, rfl⟩ := exists_coreClass hdata
  have hmodule := coreSlots_module? c
  cases hsuper : c.superclass? with
  | none =>
      rcases CoreClass.superclass?_eq_none_iff.mp hsuper with rfl | rfl
      · exact absurd rfl hroot
      · rw [hmodule, Option.some.injEq] at hdata
        subst hdata
        cases hkind
  | some parent =>
      have hparent : parent ≠ .kernel := by
        rintro rfl
        exact CoreClass.superclass?_ne_kernel hsuper
      have hisClass : Heap.IsClass ⟨coreSlots⟩ parent.value :=
        ⟨_, coreSlots_module? parent, by simpa using hparent⟩
      rw [hsuper] at hmodule
      exact ⟨_, parent.value, c.slot, parent.slot, hmodule, rfl, hisClass, c.slot?_value,
        parent.slot?_value, CoreClass.superclass?_lt hsuper⟩

/-- The classes of a fresh interpreter stand. -/
theorem boot_allStand : boot.heap.AllStand := by
  have hsize : coreSlots.size = CoreClass.all.length := by
    unfold coreSlots
    rw [List.size_toArray, List.length_map]
  exact coreSlots_allStand.of_size boot_evolves (boot_size.trans hsize.symm)

end Machine

/-! ### The names of the core classes -/

/-- The core classes have the names that they were made with. -/
def Heap.CoreNamed (h : Heap) : Prop :=
  ∀ c : CoreClass, (h.module? c.value).bind ModuleData.name = some c.name

/-- The core classes keep their names. -/
theorem Heap.CoreNamed.of_evolves {h h' : Heap} (hnamed : h.CoreNamed) (hevolves : h.Evolves h') :
    h'.CoreNamed := by
  intro c
  obtain ⟨data, hdata, hname⟩ := Option.bind_eq_some_iff.mp (hnamed c)
  obtain ⟨data', hdata', hsame⟩ := hevolves.sameModule hdata
  rw [hdata', Option.bind_some, hsame.name, hname]

namespace Machine

/-- A core class is named like that where it is told of. -/
theorem moduleName_core {m : Machine} (hnamed : m.heap.CoreNamed) (c : CoreClass) :
    m.moduleName c.value = c.name := by
  obtain ⟨data, hdata, hname⟩ := Option.bind_eq_some_iff.mp (hnamed c)
  unfold moduleName
  simp only [hdata, hname]

/-- The core classes of a fresh interpreter have their names. -/
theorem boot_coreNamed : boot.heap.CoreNamed := by
  have hmade : Heap.CoreNamed ⟨coreSlots⟩ := fun c => by rw [coreSlots_module? c, Option.bind_some]
  exact hmade.of_evolves boot_evolves

end Machine

end EmbeddedRuby
