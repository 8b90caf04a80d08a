import EmbeddedRuby.Proofs.Superclasses

/-!
# Modules that are left as they are

Most changes of the heap leave all modules alone: the **modules are spared** (`Heap.SparesModules`) if
what was a module is the same module after the change, and what is new as a module has neither a name
nor anything in it.

A class variable may be set, and yet all **constants are kept** (`Heap.KeepsConstants`): each of them
holds what it held, though there may be more of them.  Here too a module that is new has no name.
What spares the modules keeps the constants (`Heap.SparesModules.keepsConstants`), and so does the
setting of a constant that was not there before (`Heap.KeepsConstants.setConstant`).
-/

namespace EmbeddedRuby

/-- A module without a name in which nothing is defined. -/
structure ModuleData.Blank (data : ModuleData) : Prop where
  name : data.name = none
  constants : data.constants = {}
  classVars : data.classVars = {}

namespace Heap

variable {h h₁ h₂ : Heap} {v cls : Value} {b : Body}

/-! ### Other contents for an object -/

/-- An object has the contents of its slot. -/
theorem body?_of_slot? {slot : Slot} (hslot : h.slot? v = some slot) :
    h.body? v = some slot.body := by
  unfold body?
  rw [hslot]
  rfl

/-- With other contents an object is of the class that it was of. -/
theorem slot?_setBody_self {old : Body} (hv : h.slot? v = some ⟨cls, old⟩) (b : Body) :
    (h.setBody v b).slot? v = some ⟨cls, b⟩ := by
  obtain ⟨place, hplace, hget⟩ := Option.bind_eq_some_iff.mp hv
  unfold setBody slot?
  rw [hplace]
  simp [Array.getElem?_modify, hget]

/-- An object that is given other contents has them. -/
theorem body?_setBody_self (hv : (h.body? v).isSome = true) (b : Body) :
    (h.setBody v b).body? v = some b := by
  obtain ⟨old, hold⟩ := Option.isSome_iff_exists.mp hv
  obtain ⟨⟨cls, body⟩, hslot, -⟩ := Option.map_eq_some_iff.mp hold
  exact body?_of_slot? (slot?_setBody_self hslot b)

/-- Other objects are as they were. -/
theorem slot?_setBody_of_ne {other : Value} (hne : other ≠ v) (b : Body) :
    (h.setBody v b).slot? other = h.slot? other := by
  unfold setBody
  cases hv : v.slot? with
  | none => rfl
  | some place =>
      cases hother : other.slot? with
      | none =>
          unfold slot?
          rw [hother]
          rfl
      | some index =>
          have hplaces : place ≠ index := by
            rintro rfl
            exact hne ((Value.eq_ofSlot hother).trans (Value.eq_ofSlot hv).symm)
          unfold slot?
          rw [hother]
          simp [Array.getElem?_modify, hplaces]

/-- Other objects have the contents that they had. -/
theorem body?_setBody_of_ne {other : Value} (hne : other ≠ v) (b : Body) :
    (h.setBody v b).body? other = h.body? other := by
  unfold body?
  rw [slot?_setBody_of_ne hne]

/-- A change of one module is a change of this module. -/
theorem module?_changeModule_self {data : ModuleData} (hdata : h.module? v = some data)
    (change : ModuleData → ModuleData) : (h.changeModule v change).module? v = some (change data) := by
  have hthere : (h.body? v).isSome = true := by
    rw [module?_eq_some_iff.mp hdata, Option.isSome_some]
  unfold changeModule
  rw [hdata]
  exact module?_eq_some_iff.mpr (body?_setBody_self hthere _)

/-- Other modules are as they were. -/
theorem module?_changeModule_of_ne {other : Value} (hne : other ≠ v)
    (change : ModuleData → ModuleData) : (h.changeModule v change).module? other = h.module? other := by
  unfold changeModule
  split
  · unfold module?
    rw [body?_setBody_of_ne hne]
  · rfl

/-- What is no module does not become one by the change. -/
theorem module?_changeModule_of_none {other : Value} (hnone : h.module? other = none)
    (change : ModuleData → ModuleData) : (h.changeModule v change).module? other = none := by
  by_cases hsame : other = v
  · subst hsame
    unfold changeModule
    rw [hnone]
    exact hnone
  · rw [module?_changeModule_of_ne hsame, hnone]

/-! ### Modules that are spared -/

/-- Every module is as it was, and what is new is blank. -/
structure SparesModules (h h' : Heap) : Prop where
  kept : ∀ v data, h.module? v = some data → h'.module? v = some data
  blank : ∀ v data, h.module? v = none → h'.module? v = some data → data.Blank

namespace SparesModules

/-- Modules are spared where all of them are the same. -/
theorem of_module?_eq (hsame : ∀ v, h₁.module? v = h.module? v) : h.SparesModules h₁ := by
  refine ⟨fun v data hdata => (hsame v).trans hdata, fun v data hbefore hdata => ?_⟩
  rw [hsame, hbefore] at hdata
  cases hdata

/-- A heap spares its own modules. -/
theorem refl (h : Heap) : h.SparesModules h :=
  of_module?_eq fun _ => rfl

/-- Modules that are spared twice are spared, and those that are new in between stay blank. -/
theorem trans (hfirst : h.SparesModules h₁) (hlater : h₁.SparesModules h₂) :
    h.SparesModules h₂ := by
  refine ⟨fun v data hdata => hlater.kept v data (hfirst.kept v data hdata), ?_⟩
  intro v data hbefore hdata
  cases hmiddle : h₁.module? v with
  | none => exact hlater.blank v data hmiddle hdata
  | some data₁ =>
      obtain rfl : data₁ = data :=
        Option.some.inj ((hlater.kept v data₁ hmiddle).symm.trans hdata)
      exact hfirst.blank v data₁ hbefore hmiddle

/-- A new object is no module, or a blank one. -/
theorem alloc (h : Heap) (cls : Value) (hblank : ∀ data, b = .ofModule data → data.Blank) :
    h.SparesModules (h.alloc cls b).2 := by
  constructor
  · intro v data hdata
    exact module?_eq_some_iff.mpr (body?_alloc_of_some (module?_eq_some_iff.mp hdata) cls b)
  · intro v data hbefore hdata
    exact hblank data (module?_alloc_new hbefore hdata).2

/-- An Integer is no module. -/
theorem ofInteger (h : Heap) (n : Int) : h.SparesModules (h.ofInteger n).2 := by
  unfold Heap.ofInteger
  split
  · exact .refl h
  · exact .alloc h _ nofun

/-- What is no module is given other contents, and is none then either. -/
theorem setBody {old : Body} (hold : h.body? v = some old) (hbefore : ∀ data, old ≠ .ofModule data)
    (hafter : ∀ data, b ≠ .ofModule data) : h.SparesModules (h.setBody v b) := by
  refine of_module?_eq fun other => ?_
  by_cases hsame : other = v
  · subst hsame
    have hthere : (h.body? other).isSome = true := by rw [hold, Option.isSome_some]
    have hnone : ∀ {h : Heap} {b : Body}, h.body? other = some b → (∀ data, b ≠ .ofModule data) →
        h.module? other = none := by
      intro h b hb hother
      refine Option.eq_none_iff_forall_ne_some.mpr fun data hdata => ?_
      exact hother data (Option.some.inj (hb.symm.trans (module?_eq_some_iff.mp hdata)))
    rw [hnone (body?_setBody_self hthere b) hafter, hnone hold hbefore]
  · unfold module?
    rw [body?_setBody_of_ne hsame]

end SparesModules

/-! ### Constants that are kept -/

/-- A constant of a module is found among its constants. -/
theorem constantAt?_of_module? {data : ModuleData} (hdata : h.module? v = some data)
    (id : SymbolId) : h.constantAt? v id = data.constants.get? id := by
  unfold constantAt?
  rw [hdata, Option.bind_some]

/-- Every constant holds what it held, and a module that is new has no name. -/
structure KeepsConstants (h h' : Heap) : Prop where
  kept : ∀ v id c, h.constantAt? v id = some c → h'.constantAt? v id = some c
  unnamed : ∀ v data, h.module? v = none → h'.module? v = some data → data.name = none

/-- A module that is the same has the same constants. -/
theorem SparesModules.keepsConstants (hspares : h.SparesModules h₁) : h.KeepsConstants h₁ where
  kept v id c hc := by
    obtain ⟨data, hdata, hget⟩ := Option.bind_eq_some_iff.mp hc
    rw [constantAt?_of_module? (hspares.kept v data hdata)]
    exact hget
  unnamed v data hbefore hdata := (hspares.blank v data hbefore hdata).name

namespace KeepsConstants

/-- A heap keeps its own constants. -/
theorem refl (h : Heap) : h.KeepsConstants h :=
  (SparesModules.refl h).keepsConstants

/-- Constants that are kept twice are kept, and a module that is new in between keeps having no
name. -/
theorem trans (hfirst : h.KeepsConstants h₁) (hlater : h₁.KeepsConstants h₂)
    (hevolves : h₁.Evolves h₂) : h.KeepsConstants h₂ := by
  refine ⟨fun v id c hc => hlater.kept v id c (hfirst.kept v id c hc), ?_⟩
  intro v data hbefore hdata
  cases hmiddle : h₁.module? v with
  | none => exact hlater.unnamed v data hmiddle hdata
  | some data₁ =>
      obtain ⟨later, hfound, hsame⟩ := hevolves.sameModule hmiddle
      obtain rfl : later = data := Option.some.inj (hfound.symm.trans hdata)
      exact hsame.name.trans (hfirst.unnamed v data₁ hbefore hmiddle)

/-- A module is changed that keeps its constants. -/
theorem changeModule (h : Heap) (v : Value) {change : ModuleData → ModuleData}
    (hchange : ∀ data id c, h.module? v = some data → data.constants.get? id = some c →
      (change data).constants.get? id = some c) : h.KeepsConstants (h.changeModule v change) where
  kept other id c hc := by
    obtain ⟨data, hdata, hget⟩ := Option.bind_eq_some_iff.mp hc
    by_cases hsame : other = v
    · subst hsame
      rw [constantAt?_of_module? (module?_changeModule_self hdata change)]
      exact hchange data id c hdata hget
    · rw [constantAt?_of_module? ((module?_changeModule_of_ne hsame change).trans hdata)]
      exact hget
  unnamed other data hbefore hdata := by
    rw [module?_changeModule_of_none hbefore] at hdata
    cases hdata

/-- Setting a class variable is setting no constant. -/
theorem setClassVar (h : Heap) (cls : Value) (id : SymbolId) (value : Value) :
    h.KeepsConstants (h.setClassVar cls id value) :=
  .changeModule h cls fun _ _ _ _ hc => hc

/-- A constant is set that was not there before. -/
theorem setConstant {id : SymbolId} (hnew : h.constantAt? v id = none) (value : Value) :
    h.KeepsConstants (h.setConstant v id value) := by
  refine .changeModule h v fun data other c hdata hc => ?_
  have hne : other ≠ id := by
    rintro rfl
    rw [constantAt?_of_module? hdata, hc] at hnew
    cases hnew
  exact (data.constants.get?_insert_of_ne value hne).trans hc

end KeepsConstants

/-- A constant of a module that was set holds what it was set to. -/
theorem constantAt?_setConstant_self {data : ModuleData} (hdata : h.module? v = some data)
    (id : SymbolId) (value : Value) : (h.setConstant v id value).constantAt? v id = some value := by
  unfold setConstant
  rw [constantAt?_of_module? (module?_changeModule_self hdata _)]
  exact data.constants.get?_insert_self id value

/-- The other constants of the module hold what they held. -/
theorem constantAt?_setConstant_of_ne {id other : SymbolId} (hne : other ≠ id) (value : Value) :
    (h.setConstant v id value).constantAt? v other = h.constantAt? v other := by
  unfold setConstant
  cases hdata : h.module? v with
  | none =>
      unfold changeModule
      rw [hdata]
  | some data =>
      rw [constantAt?_of_module? (module?_changeModule_self hdata _), constantAt?_of_module? hdata]
      exact data.constants.get?_insert_of_ne value hne

/-- A constant is there still when a new object was made. -/
theorem constantAt?_alloc_of_some {id : SymbolId} {c : Value} (hc : h.constantAt? v id = some c)
    (cls : Value) (b : Body) : (h.alloc cls b).2.constantAt? v id = some c := by
  obtain ⟨data, hdata, hget⟩ := Option.bind_eq_some_iff.mp hc
  have hstill := body?_alloc_of_some (module?_eq_some_iff.mp hdata) cls b
  rw [constantAt?_of_module? (module?_eq_some_iff.mpr hstill)]
  exact hget

/-- No constant comes with a new module. -/
theorem constantAt?_alloc_of_none {id : SymbolId} (hnone : h.constantAt? v id = none) (cls : Value)
    {data : ModuleData} (hempty : data.constants = {}) :
    (h.alloc cls (.ofModule data)).2.constantAt? v id = none := by
  cases hold : h.module? v with
  | some found =>
      have hstill := body?_alloc_of_some (module?_eq_some_iff.mp hold) cls (.ofModule data)
      rw [constantAt?_of_module? hold] at hnone
      rw [constantAt?_of_module? (module?_eq_some_iff.mpr hstill), hnone]
  | none =>
      cases hfound : (h.alloc cls (.ofModule data)).2.module? v with
      | none =>
          unfold constantAt?
          rw [hfound, Option.bind_none]
      | some later =>
          obtain ⟨-, hsame⟩ := module?_alloc_new hold hfound
          cases hsame
          rw [constantAt?_of_module? hfound, hempty]
          rfl

end Heap

end EmbeddedRuby
