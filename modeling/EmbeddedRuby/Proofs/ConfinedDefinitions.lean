import EmbeddedRuby.Proofs.SparedModules

/-!
# Definitions in new modules only

A wrapped script has a new module of its own, which has no name, and what it opens is made in that
module or in modules made there.  A module that is made in another one is named after it, so what was
made **beneath** the wrapping module can be told at any later moment (`Machine.MadeBeneath`).

From the objects before the script on, definitions are **confined** (`Machine.Confines`): modules that
were there are as they were, and a module that is new was made beneath the wrapping module, or is
blank.  Where a new module holds a constant that is a module, that was made beneath the wrapping module
too; so a body that is opened again is the body of a new module.  What spares the modules keeps all
this up (`Confines.of_spares`), and so does a definition in a module that was made beneath the wrapping
one (`Confines.changeModule`, `Confines.newModule`).

Beyond that, a definition **lands** beneath the wrapping module (`Machine.Lands`) if one of the modules
made there has it in the end.  A table that has an entry for a key keeps one (`Heap.KeepsDefined`).
-/

namespace EmbeddedRuby

/-- A table has an entry for each key that it had one for. -/
theorem Table.exists_get?_insert {κ α : Type} [DecidableEq κ] {t : Table κ α} {other : κ} {a : α}
    (h : t.get? other = some a) (key : κ) (value : α) :
    ∃ a', (t.insert key value).get? other = some a' := by
  by_cases hsame : other = key
  · subst hsame
    exact ⟨value, t.get?_insert_self other value⟩
  · exact ⟨a, (t.get?_insert_of_ne value hsame).trans h⟩

namespace Heap

variable {h h' : Heap} {v : Value} {b : Body}

/-- What an object is that can never become a module: it has no place in the heap, or something else
stands there. -/
def NeverModule (h : Heap) (v : Value) : Prop :=
  v.slot? = none ∨ ∃ b, h.body? v = some b ∧ ∀ data, b ≠ .ofModule data

/-- What can never become a module is none now. -/
theorem NeverModule.module?_eq_none (hv : h.NeverModule v) : h.module? v = none := by
  refine Option.eq_none_iff_forall_ne_some.mpr fun data hdata => ?_
  have hbody := module?_eq_some_iff.mp hdata
  rcases hv with hnowhere | ⟨b, hb, hother⟩
  · obtain ⟨place, hplace⟩ := slot?_of_body? hbody
    rw [hnowhere] at hplace
    cases hplace
  · exact hother data (Option.some.inj (hb.symm.trans hbody))

/-- What can never become a module can never become one later either. -/
theorem NeverModule.of_evolves (hv : h.NeverModule v) (hevolves : h.Evolves h') :
    h'.NeverModule v := by
  rcases hv with hnowhere | ⟨b, hb, hother⟩
  · exact .inl hnowhere
  · obtain ⟨b', hb', hbecomes⟩ := hevolves.body? hb
    refine .inr ⟨b', hb', ?_⟩
    rintro data rfl
    cases hbecomes with
    | same => exact hother data rfl
    | module => exact hother _ rfl

/-- If there is room after an object was made there was room for it. -/
theorem addressable_of_alloc {cls : Value} (hroom : (h.alloc cls b).2.HasRoom 0) :
    h.Addressable := by
  unfold HasRoom alloc at hroom
  rw [Array.size_push] at hroom
  unfold Addressable
  omega

/-- A new object that is no module never becomes one. -/
theorem neverModule_alloc {cls : Value} (hroom : (h.alloc cls b).2.HasRoom 0)
    (hb : ∀ data, b ≠ .ofModule data) : (h.alloc cls b).2.NeverModule (h.alloc cls b).1 :=
  .inr ⟨b, body?_alloc (addressable_of_alloc hroom) cls b, hb⟩

/-- A word that is no multiple of eight has no place in the heap. -/
theorem neverModule_of_word (h : Heap) (hword : v.word.toNat % 8 ≠ 0) : h.NeverModule v := by
  refine .inl ?_
  unfold Value.slot?
  rw [if_pos (.inr hword)]

/-- A symbol has no place in the heap. -/
theorem neverModule_ofSymbol (h : Heap) (id : SymbolId) : h.NeverModule (Value.ofSymbol id) := by
  refine h.neverModule_of_word ?_
  unfold Value.ofSymbol Value.ofWord
  rw [UInt64.toNat_ofNat']
  omega

/-- An Integer is a word or a number in the heap, and neither becomes a module. -/
theorem neverModule_ofInteger {n : Int} (hroom : (h.ofInteger n).2.HasRoom 0) :
    (h.ofInteger n).2.NeverModule (h.ofInteger n).1 := by
  unfold ofInteger at hroom ⊢
  split
  · refine h.neverModule_of_word ?_
    unfold Value.ofFixnum Value.ofWord
    rw [UInt64.toNat_ofNat']
    omega
  · rename_i hbig
    rw [if_neg hbig] at hroom
    exact neverModule_alloc hroom nofun

end Heap

namespace Machine

variable {m m' : Machine} {before : Heap} {top v parent : Value}

/-- The name of a module depends on nothing that can change. -/
theorem moduleName_of_evolves (hevolves : m.heap.Evolves m'.heap) {data : ModuleData}
    (hdata : m.heap.module? v = some data) : m'.moduleName v = m.moduleName v := by
  obtain ⟨data', hdata', hsame⟩ := hevolves.sameModule hdata
  unfold moduleName
  simp only [hdata, hdata', hsame.name, hsame.isClass]

/-- The name that a module would have in another one can be told at any later moment. -/
theorem qualifiedName_of_evolves (hevolves : m.heap.Evolves m'.heap) {data : ModuleData}
    (hdata : m.heap.module? parent = some data) (name : String) :
    m'.qualifiedName parent name = m.qualifiedName parent name := by
  unfold qualifiedName
  rw [moduleName_of_evolves hevolves hdata]

/-- The module is the wrapping one, a plain module without a name, or it was made in such a module and
is named after it.  None of them was there before. -/
inductive MadeBeneath (before : Heap) (m : Machine) (top : Value) : Value → Prop
  | top {data : ModuleData} (hnew : before.module? top = none)
      (hdata : m.heap.module? top = some data) (hname : data.name = none)
      (hplain : data.isClass = false) : MadeBeneath before m top top
  | body {parent child : Value} {data : ModuleData} {name : String}
      (hparent : MadeBeneath before m top parent) (hnew : before.module? child = none)
      (hdata : m.heap.module? child = some data)
      (hname : data.name = some (m.qualifiedName parent name)) : MadeBeneath before m top child

namespace MadeBeneath

/-- A module made beneath the wrapping one was not there before. -/
theorem new (hv : MadeBeneath before m top v) : before.module? v = none := by
  cases hv with
  | top hnew => exact hnew
  | body _ hnew => exact hnew

/-- A module made beneath the wrapping one is a module. -/
theorem exists_data (hv : MadeBeneath before m top v) : ∃ data, m.heap.module? v = some data := by
  cases hv with
  | top _ hdata => exact ⟨_, hdata⟩
  | body _ _ hdata => exact ⟨_, hdata⟩

/-- What was made beneath the wrapping module is so at every later moment. -/
theorem of_evolves (hv : MadeBeneath before m top v) (hevolves : m.heap.Evolves m'.heap) :
    MadeBeneath before m' top v := by
  induction hv with
  | top hnew hdata hname hplain =>
      obtain ⟨data', hdata', hsame⟩ := hevolves.sameModule hdata
      exact .top hnew hdata' (hsame.name.trans hname) (hsame.isClass.trans hplain)
  | @body parent child data name hparent hnew hdata hname ih =>
      obtain ⟨data', hdata', hsame⟩ := hevolves.sameModule hdata
      obtain ⟨parentData, hparentData⟩ := hparent.exists_data
      have hchild : data'.name = some (m'.qualifiedName parent name) := by
        rw [hsame.name, hname, qualifiedName_of_evolves hevolves hparentData]
      exact .body ih hnew hdata' hchild

end MadeBeneath

/-- What a constant of a new module may be: a module that was made beneath the wrapping one, or no
module at all. -/
def Holdable (before : Heap) (m : Machine) (top v : Value) : Prop :=
  MadeBeneath before m top v ∨ m.heap.NeverModule v

/-- What a new module may hold it may hold later. -/
theorem Holdable.of_evolves (hv : Holdable before m top v) (hevolves : m.heap.Evolves m'.heap) :
    Holdable before m' top v :=
  hv.imp (fun hmade => hmade.of_evolves hevolves) fun hnever => hnever.of_evolves hevolves

/-- A module that a new module holds was made beneath the wrapping one. -/
theorem Holdable.madeBeneath (hv : Holdable before m top v) {data : ModuleData}
    (hdata : m.heap.module? v = some data) : MadeBeneath before m top v := by
  rcases hv with hmade | hnever
  · exact hmade
  · rw [hnever.module?_eq_none] at hdata
    cases hdata

/-- What is known of a module that was not there before. -/
structure NewModule (before : Heap) (m : Machine) (top v : Value) (data : ModuleData) : Prop where
  place : MadeBeneath before m top v ∨ data.Blank
  held : ∀ id c, data.constants.get? id = some c → Holdable before m top c

/-- Modules that were there before are as they were, and all others were made beneath the wrapping
module or are blank. -/
structure Confines (before : Heap) (m : Machine) (top : Value) : Prop where
  kept : ∀ v data, before.module? v = some data → m.heap.module? v = some data
  new : ∀ v data, before.module? v = none → m.heap.module? v = some data →
    NewModule before m top v data

/-- A module that is blank holds nothing that it may not. -/
theorem NewModule.of_blank {data : ModuleData} (hblank : data.Blank) :
    NewModule before m top v data := by
  refine ⟨.inr hblank, fun id c hc => ?_⟩
  rw [hblank.constants] at hc
  cases hc

/-- What is known of a new module stays true as the heap evolves. -/
theorem NewModule.of_evolves {data : ModuleData} (hv : NewModule before m top v data)
    (hevolves : m.heap.Evolves m'.heap) : NewModule before m' top v data where
  place := hv.place.imp_left fun hmade => hmade.of_evolves hevolves
  held := fun id c hc => (hv.held id c hc).of_evolves hevolves

namespace Confines

/-- A constant of a module made beneath the wrapping one is one that it may hold. -/
theorem held (hm : Confines before m top) (hv : MadeBeneath before m top v) {id : SymbolId}
    {c : Value} (hc : m.heap.constantAt? v id = some c) : Holdable before m top c := by
  obtain ⟨data, hdata, hconstant⟩ := Option.bind_eq_some_iff.mp hc
  exact (hm.new v data hv.new hdata).held id c hconstant

/-- Nothing has been defined as long as the modules were spared. -/
theorem of_spared (hspares : before.SparesModules m.heap) : Confines before m top where
  kept := hspares.kept
  new := fun v data hnew hdata => .of_blank (hspares.blank v data hnew hdata)

/-- What spares the modules keeps definitions confined. -/
theorem of_spares (hm : Confines before m top) (hevolves : m.heap.Evolves m'.heap)
    (hspares : m.heap.SparesModules m'.heap) : Confines before m' top := by
  refine ⟨fun v data hdata => hspares.kept v data (hm.kept v data hdata), ?_⟩
  intro v data' hnew hdata'
  cases hdata : m.heap.module? v with
  | none => exact .of_blank (hspares.blank v data' hdata hdata')
  | some data =>
      obtain rfl : data = data' := Option.some.inj ((hspares.kept v data hdata).symm.trans hdata')
      exact (hm.new v data hnew hdata).of_evolves hevolves

/-- A definition in a module that was made beneath the wrapping one is confined, if what it puts there
may be held. -/
theorem changeModule (hm : Confines before m top) (hparent : MadeBeneath before m top parent)
    {change : ModuleData → ModuleData} (hheap : m'.heap = m.heap.changeModule parent change)
    (hchange : ∀ data, (change data).name = data.name ∧
      (change data).isClass = data.isClass ∧ (change data).superclass = data.superclass)
    (hput : ∀ data id c, (change data).constants.get? id = some c →
      data.constants.get? id = some c ∨ Holdable before m top c) : Confines before m' top := by
  have hevolves : m.heap.Evolves m'.heap := by
    rw [hheap]
    exact .changeModule m.heap parent hchange
  have hothers : ∀ {v}, v ≠ parent → m'.heap.module? v = m.heap.module? v := by
    intro v hne
    rw [hheap]
    exact Heap.module?_changeModule_of_ne hne change
  constructor
  · intro v data hdata
    have hne : v ≠ parent := by
      rintro rfl
      rw [hparent.new] at hdata
      cases hdata
    exact (hothers hne).trans (hm.kept v data hdata)
  · intro v data' hnew hdata'
    by_cases hsame : v = parent
    · subst hsame
      obtain ⟨data, hdata⟩ := hparent.exists_data
      have hchanged := Heap.module?_changeModule_self hdata change
      rw [← hheap] at hchanged
      obtain rfl : change data = data' := Option.some.inj (hchanged.symm.trans hdata')
      refine ⟨.inl (hparent.of_evolves hevolves), fun id c hc => ?_⟩
      rcases hput data id c hc with hold | hnewly
      · exact ((hm.new v data hnew hdata).held id c hold).of_evolves hevolves
      · exact hnewly.of_evolves hevolves
    · have hdata : m.heap.module? v = some data' := (hothers hsame).symm.trans hdata'
      exact (hm.new v data' hnew hdata).of_evolves hevolves

/-- Setting a constant there keeps definitions confined, if it may be held. -/
theorem setConstant (hm : Confines before m top) (hparent : MadeBeneath before m top parent)
    (id : SymbolId) {c : Value} (hc : Holdable before m top c) :
    Confines before (m.setConstant parent id c) top := by
  refine hm.changeModule hparent rfl (fun _ => ⟨rfl, rfl, rfl⟩) fun data other found hfound => ?_
  by_cases hsame : other = id
  · subst hsame
    rw [Table.get?_insert_self, Option.some.injEq] at hfound
    exact .inr (hfound ▸ hc)
  · rw [Table.get?_insert_of_ne _ _ hsame] at hfound
    exact .inl hfound

/-- Setting a class variable there keeps definitions confined, whatever its value. -/
theorem setClassVar (hm : Confines before m top) (hparent : MadeBeneath before m top parent)
    (id : SymbolId) (value : Value) :
    Confines before { m with heap := m.heap.setClassVar parent id value } top :=
  hm.changeModule hparent rfl (fun _ => ⟨rfl, rfl, rfl⟩) fun _ _ _ hfound => .inl hfound

/-- In the place of the next object there was no module before. -/
theorem module?_next (hm : Confines before m top) (hroom : m.heap.Addressable) :
    before.module? (Value.ofSlot m.heap.slots.size) = none := by
  refine Option.eq_none_iff_forall_ne_some.mpr fun data hdata => ?_
  have hbody := Heap.module?_eq_some_iff.mp (hm.kept _ data hdata)
  obtain ⟨place, slot, hplace, hget, -⟩ := Heap.exists_place hbody
  obtain rfl : m.heap.slots.size = place :=
    Option.some.inj ((Value.slot?_ofSlot hroom).symm.trans hplace)
  exact Nat.lt_irrefl _ (Array.getElem?_eq_some_iff.mp hget).1

/-- A new module that is named after one that was made beneath the wrapping module was made there
itself. -/
theorem newModule (hm : Confines before m top) (hparent : MadeBeneath before m top parent)
    (hroom : m.heap.Addressable) (name : String) (superclass : Option Value) :
    let made := m.newModule (some (m.qualifiedName parent name)) superclass
    Confines before made.2 top ∧ MadeBeneath before made.2 top made.1 := by
  intro made
  have hevolves : m.heap.Evolves made.2.heap := .alloc m.heap _ _
  have hdata : made.2.heap.module? made.1 = some _ :=
    Heap.module?_eq_some_iff.mpr (Heap.body?_alloc hroom _ _)
  obtain ⟨parentData, hparentData⟩ := hparent.exists_data
  have hmade : MadeBeneath before made.2 top made.1 := by
    have hname : some (m.qualifiedName parent name) = some (made.2.qualifiedName parent name) := by
      rw [qualifiedName_of_evolves hevolves hparentData]
    exact .body (hparent.of_evolves hevolves) (hm.module?_next hroom) hdata hname
  refine ⟨⟨fun v data hbefore => ?_, fun v data hnew hfound => ?_⟩, hmade⟩
  · have hbody := Heap.module?_eq_some_iff.mp (hm.kept v data hbefore)
    exact Heap.module?_eq_some_iff.mpr (Heap.body?_alloc_of_some hbody _ _)
  · cases hold : m.heap.module? v with
    | none =>
        obtain ⟨hplace, hbody⟩ := Heap.module?_alloc_new hold hfound
        obtain rfl : v = made.1 := Value.eq_ofSlot hplace
        cases hbody
        refine ⟨.inl hmade, fun id c hc => ?_⟩
        cases hc
    | some data₁ =>
        have hbody := Heap.body?_alloc_of_some (Heap.module?_eq_some_iff.mp hold)
        obtain rfl : data₁ = data := Option.some.inj
          ((Heap.module?_eq_some_iff.mpr (hbody _ _)).symm.trans hfound)
        exact (hm.new v data₁ hnew hold).of_evolves hevolves

/-- The wrapping module is a new one. -/
theorem wrap (hspares : before.SparesModules m.heap) (hroom : m.heap.Addressable) :
    let made := m.newModule none none
    Confines before made.2 made.1 ∧ MadeBeneath before made.2 made.1 made.1 := by
  intro made
  have hblank : m.heap.SparesModules made.2.heap := by
    refine .alloc m.heap _ ?_
    rintro data hdata
    cases hdata
    exact ⟨rfl, rfl, rfl⟩
  have hconfines : Confines before m made.1 := .of_spared hspares
  exact ⟨.of_spared (hspares.trans hblank), .top (hconfines.module?_next hroom)
    (Heap.module?_eq_some_iff.mpr (Heap.body?_alloc hroom _ _)) rfl rfl⟩

end Confines

end Machine

/-! ### What is defined -/

/-- The tables in which a module has its definitions. -/
inductive ModuleTable where
  | constants
  | classVars
deriving DecidableEq

/-- The definitions of a module in such a table. -/
def ModuleData.table (data : ModuleData) : ModuleTable → Table SymbolId Value
  | .constants => data.constants
  | .classVars => data.classVars

namespace Heap

variable {h h₁ h₂ : Heap} {v c : Value} {data : ModuleData} {kind : ModuleTable} {id : SymbolId}

/-- The module has a definition under this number. -/
def Defines (h : Heap) (v : Value) (kind : ModuleTable) (id : SymbolId) : Prop :=
  ∃ data c, h.module? v = some data ∧ (data.table kind).get? id = some c

/-- A constant that is found in a module is defined there. -/
theorem defines_of_constantAt? (hc : h.constantAt? v id = some c) : h.Defines v .constants id := by
  obtain ⟨data, hdata, hconstant⟩ := Option.bind_eq_some_iff.mp hc
  exact ⟨data, c, hdata, hconstant⟩

/-- A constant that was just set is defined. -/
theorem defines_setConstant (hdata : h.module? v = some data) (id : SymbolId) (c : Value) :
    (h.setConstant v id c).Defines v .constants id :=
  ⟨_, c, module?_changeModule_self hdata _, Table.get?_insert_self data.constants id c⟩

/-- A class variable that was just set is defined. -/
theorem defines_setClassVar (hdata : h.module? v = some data) (id : SymbolId) (c : Value) :
    (h.setClassVar v id c).Defines v .classVars id :=
  ⟨_, c, module?_changeModule_self hdata _, Table.get?_insert_self data.classVars id c⟩

/-- What is defined stays defined, whatever becomes of its value. -/
def KeepsDefined (h h' : Heap) : Prop :=
  ∀ v kind id, h.Defines v kind id → h'.Defines v kind id

namespace KeepsDefined

/-- A heap keeps its own definitions. -/
theorem refl (h : Heap) : h.KeepsDefined h :=
  fun _ _ _ hdefined => hdefined

/-- What is kept and kept again is kept. -/
theorem trans (hfirst : h.KeepsDefined h₁) (hlater : h₁.KeepsDefined h₂) : h.KeepsDefined h₂ :=
  fun v kind id hdefined => hlater v kind id (hfirst v kind id hdefined)

/-- Definitions are kept where modules stay as they are. -/
theorem of_kept (hkept : ∀ v data, h.module? v = some data → h₁.module? v = some data) :
    h.KeepsDefined h₁ := by
  rintro v kind id ⟨data, c, hdata, hc⟩
  exact ⟨data, c, hkept v data hdata, hc⟩

/-- A new object undoes no definition. -/
theorem alloc (h : Heap) (cls : Value) (b : Body) : h.KeepsDefined (h.alloc cls b).2 :=
  of_kept fun _ _ hdata =>
    module?_eq_some_iff.mpr (body?_alloc_of_some (module?_eq_some_iff.mp hdata) cls b)

/-- A change of a module keeps what is defined if the tables keep their entries. -/
theorem changeModule (h : Heap) (v : Value) {change : ModuleData → ModuleData}
    (hchange : ∀ data kind id c, (data.table kind).get? id = some c →
      ∃ c', ((change data).table kind).get? id = some c') :
    h.KeepsDefined (h.changeModule v change) := by
  rintro other kind id ⟨data, c, hdata, hc⟩
  by_cases hsame : other = v
  · subst hsame
    obtain ⟨c', hc'⟩ := hchange data kind id c hc
    exact ⟨change data, c', module?_changeModule_self hdata change, hc'⟩
  · exact ⟨data, c, (module?_changeModule_of_ne hsame change).trans hdata, hc⟩

/-- Setting a constant gives it another value at most. -/
theorem setConstant (h : Heap) (v : Value) (id : SymbolId) (c : Value) :
    h.KeepsDefined (h.setConstant v id c) := by
  refine changeModule h v fun data kind other c' hc' => ?_
  cases kind with
  | constants => exact Table.exists_get?_insert hc' id c
  | classVars => exact ⟨c', hc'⟩

/-- Setting a class variable gives it another value at most. -/
theorem setClassVar (h : Heap) (v : Value) (id : SymbolId) (c : Value) :
    h.KeepsDefined (h.setClassVar v id c) := by
  refine changeModule h v fun data kind other c' hc' => ?_
  cases kind with
  | constants => exact ⟨c', hc'⟩
  | classVars => exact Table.exists_get?_insert hc' id c

end KeepsDefined

end Heap

/-- Something is defined under this name in a module that was made beneath the wrapping one. -/
def Machine.Lands (before : Heap) (m : Machine) (top : Value) (kind : ModuleTable) (name : String) :
    Prop :=
  ∃ v id, m.MadeBeneath before top v ∧ m.symbols.find? name = some id ∧ m.heap.Defines v kind id

end EmbeddedRuby
