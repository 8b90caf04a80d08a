import EmbeddedRuby.Proofs.ModulePaths
import EmbeddedRuby.Proofs.TidyRuns

/-!
# Modules and their names

A module is named once and for all after the modules that it was made in.  As long as no constant is
overwritten that name stays the path to it: from `Object`, each name is a constant of the module before
(`Machine.NamesModules`).  So it is in a fresh interpreter (`Machine.boot_namesModules`), each stage of
a run keeps it up (`World.Stage.namesModules`), and by its name the host finds the module.

The main statement is `World.module_found_by_name`.
-/

namespace EmbeddedRuby

open Eval

/-! ### Names of modules -/

namespace Machine

variable {m m' : Machine} {v parent : Value} {name path : String} {id : SymbolId}

/-- The text is a path of constants to the module, or begins with the sign for objects without names.
-/
def NamedBy (m : Machine) (v : Value) (path : String) : Prop :=
  path.toList.head? = some '#' ∨
    ∃ names, names ≠ [] ∧ (∀ name ∈ names, IsPathPart name) ∧ path = "::".intercalate names ∧
      m.Leads CoreClass.object.value names v

/-- Every module that has a name is named so. -/
def NamesModules (m : Machine) : Prop :=
  ∀ v data path, m.heap.module? v = some data → data.name = some path → m.NamedBy v path

/-- Names keep their numbers, and constants what they hold. -/
structure Keeps (m m' : Machine) : Prop where
  names : ∀ name id, m.symbols.find? name = some id → m'.symbols.find? name = some id
  constants : ∀ u id c, m.heap.constantAt? u id = some c → m'.heap.constantAt? u id = some c

/-- A module stays named by its path as long as the names and constants on it are kept. -/
theorem NamedBy.of_keeps (h : m.NamedBy v path) (hkeeps : m.Keeps m') : m'.NamedBy v path := by
  rcases h with hsign | ⟨names, hnames, hparts, hpath, hleads⟩
  · exact .inl hsign
  · exact .inr ⟨names, hnames, hparts, hpath, hleads.of_kept hkeeps.names hkeeps.constants⟩

/-- What has no name is shown with the sign for that. -/
theorem head?_moduleName (hnone : ∀ data, m.heap.module? v = some data → data.name = none) :
    (m.moduleName v).toList.head? = some '#' := by
  have hsign : ∀ kind : String, (s!"#<{kind}:0x" ++
      String.ofList (Numeral.hex 16 v.word.toNat) ++ ">").toList.head? = some '#' := by
    intro kind
    simp only [String.toList_append, List.append_assoc]
    rfl
  unfold moduleName
  cases hdata : m.heap.module? v with
  | none => exact hsign "Module"
  | some data =>
      simp only [hnone data hdata]
      exact hsign _

/-- The name by which a module is shown. -/
theorem NamesModules.namedBy_moduleName (hm : m.NamesModules) (v : Value) :
    m.NamedBy v (m.moduleName v) := by
  by_cases hnone : ∀ data, m.heap.module? v = some data → data.name = none
  · exact .inl (head?_moduleName hnone)
  · obtain ⟨data, hnamed⟩ := not_forall.mp hnone
    obtain ⟨hdata, hname⟩ := Classical.not_imp.mp hnamed
    obtain ⟨path, hpath⟩ := Option.ne_none_iff_exists'.mp hname
    have hshown : m.moduleName v = path := by
      unfold moduleName
      simp only [hdata, hpath]
    rw [hshown]
    exact hm v data path hdata hpath

/-- A module is named after the one that it is a constant of. -/
theorem NamedBy.qualified (h : m.NamedBy parent path) (hkeeps : m.Keeps m') (hname : IsPathPart name)
    (hid : m'.symbols.find? name = some id)
    (hconstant : path.toList.head? ≠ some '#' → m'.heap.constantAt? parent id = some v) :
    m'.NamedBy v (path ++ "::" ++ name) := by
  by_cases hsign : path.toList.head? = some '#'
  · refine .inl ?_
    rw [String.toList_append, String.toList_append, List.head?_append, List.head?_append, hsign]
    rfl
  · rcases h with hnamed | ⟨names, hnames, hparts, rfl, hleads⟩
    · exact absurd hnamed hsign
    · have hstill := hleads.of_kept hkeeps.names hkeeps.constants
      refine .inr ⟨names ++ [name], by simp, ?_, ?_, .next hstill hid (hconstant hsign)⟩
      · exact List.forall_mem_append.mpr ⟨hparts, by simpa using hname⟩
      · rw [String.intercalate_append_of_ne_nil hnames (List.cons_ne_nil name []),
          String.intercalate_singleton]

/-- A module that is put under a constant is named by the path of its parent and that constant. -/
theorem NamesModules.namedBy_qualifiedName (hm : m.NamesModules) (hcore : m.heap.CoreStanding)
    (hkeeps : m.Keeps m') (hname : IsPathPart name) (hid : m'.symbols.find? name = some id)
    (hconstant : ∀ data, m.heap.module? parent = some data →
      m'.heap.constantAt? parent id = some v) : m'.NamedBy v (m.qualifiedName parent name) := by
  unfold qualifiedName
  split
  · rename_i htop
    subst htop
    obtain ⟨data, hdata, -⟩ := Option.map_eq_some_iff.mp (hcore .object)
    refine .inr ⟨[name], List.cons_ne_nil _ _, by simpa using hname, ?_, ?_⟩
    · exact String.intercalate_singleton.symm
    · exact .next .here hid (hconstant data hdata)
  · refine (hm.namedBy_moduleName parent).qualified hkeeps hname hid fun hsign => ?_
    cases hdata : m.heap.module? parent with
    | some data => exact hconstant data hdata
    | none =>
        refine absurd (head?_moduleName fun data hfound => ?_) hsign
        rw [hdata] at hfound
        cases hfound

/-- What names a module now does so later, and what is new as a module has to be looked after. -/
theorem NamesModules.of_keeps (hm : m.NamesModules) (hkeeps : m.Keeps m')
    (hevolves : m.heap.Evolves m'.heap)
    (hnew : ∀ v data path, m.heap.module? v = none → m'.heap.module? v = some data →
      data.name = some path → m'.NamedBy v path) : m'.NamesModules := by
  intro v data path hdata hpath
  cases hbefore : m.heap.module? v with
  | none => exact hnew v data path hbefore hdata hpath
  | some old =>
      obtain ⟨later, hlater, hsame⟩ := hevolves.sameModule hbefore
      obtain rfl : later = data := Option.some.inj (hlater.symm.trans hdata)
      exact (hm v old path hbefore (hsame.name.symm.trans hpath)).of_keeps hkeeps

/-! ### A fresh interpreter -/

/-- A core class that has its name keeps it while the others get theirs. -/
theorem nameCoreClass_named {c : CoreClass} (hid : m.symbols.find? c.name = some id)
    (hconstant : m.heap.constantAt? CoreClass.object.value id = some c.value) (other : CoreClass) :
    (m.nameCoreClass other).symbols.find? c.name = some id ∧
      (m.nameCoreClass other).heap.constantAt? CoreClass.object.value id = some c.value := by
  have hkept : (m.nameCoreClass other).symbols.find? c.name = some id :=
    SymbolTable.find?_intern_of_find? hid other.name
  refine ⟨hkept, ?_⟩
  by_cases hsame : id = (m.symbols.intern other.name).1
  · have hname : c.name = other.name := by
      have hother := SymbolTable.name_of_find? (m.symbols.find?_intern_self other.name)
      rw [← hsame] at hother
      exact (SymbolTable.name_of_find? hkept).symm.trans hother
    obtain rfl : c = other := by
      revert hname
      cases c <;> cases other <;> decide
    obtain ⟨data, hdata, -⟩ := Option.bind_eq_some_iff.mp hconstant
    rw [hsame]
    exact Heap.constantAt?_setConstant_self hdata _ c.value
  · exact (Heap.constantAt?_setConstant_of_ne hsame other.value).trans hconstant

/-- Once all core classes have their names, each is a constant of `Object`. -/
theorem nameCoreClasses_named {classes : List CoreClass} {c : CoreClass} (hc : c ∈ classes)
    (hcore : m.heap.CoreStanding) :
    ∃ id, (classes.foldl nameCoreClass m).symbols.find? c.name = some id ∧
      (classes.foldl nameCoreClass m).heap.constantAt? CoreClass.object.value id = some c.value := by
  have hrest : ∀ (rest : List CoreClass) {m : Machine} {id : SymbolId},
      m.symbols.find? c.name = some id →
      m.heap.constantAt? CoreClass.object.value id = some c.value →
      (rest.foldl nameCoreClass m).symbols.find? c.name = some id ∧
        (rest.foldl nameCoreClass m).heap.constantAt? CoreClass.object.value id = some c.value := by
    intro rest
    induction rest with
    | nil => exact fun hid hconstant => ⟨hid, hconstant⟩
    | cons other rest ih =>
        intro m id hid hconstant
        obtain ⟨hid', hconstant'⟩ := nameCoreClass_named hid hconstant other
        exact ih hid' hconstant'
  induction classes generalizing m with
  | nil => cases hc
  | cons first rest ih =>
      rcases List.mem_cons.mp hc with rfl | hlater
      · obtain ⟨data, hdata, -⟩ := Option.map_eq_some_iff.mp (hcore .object)
        exact ⟨_, hrest rest (m.symbols.find?_intern_self c.name)
          (Heap.constantAt?_setConstant_self hdata _ c.value)⟩
      · exact ih hlater (hcore.of_evolves (m.nameCoreClass_evolves first))

/-- The methods of a fresh interpreter are not in its heap. -/
theorem boot_heap : boot.heap = bootClasses.heap := by
  obtain ⟨symbols, methods, hmethods⟩ := defineOwns_frame ownMethods bootClasses
  rw [boot_eq, hmethods]

/-- The modules of a fresh interpreter are constants of `Object`. -/
theorem boot_namesModules : boot.NamesModules := by
  obtain ⟨heap, named, hclasses, hsize, hevolves⟩ :=
    nameCoreClasses_frame CoreClass.all { heap := ⟨coreSlots⟩ }
  have hgrown : bootClasses.heap = heap := by
    unfold bootClasses
    rw [hclasses]
  intro v data path hdata hpath
  rw [boot_heap, hgrown] at hdata
  obtain ⟨place, slot, hplace, hget, -⟩ := Heap.exists_place (Heap.module?_eq_some_iff.mp hdata)
  have hold : place < coreSlots.size := hsize ▸ (Array.getElem?_eq_some_iff.mp hget).1
  obtain ⟨before, hbefore, hsame⟩ := hevolves.module?_before hdata hplace hold
  obtain ⟨c, rfl⟩ := exists_coreClass hbefore
  rw [coreSlots_module?, Option.some.injEq] at hbefore
  subst hbefore
  obtain rfl : c.name = path := Option.some.inj (hsame.name.symm.trans hpath)
  have hpart : IsPathPart c.name := by
    cases c <;> exact ⟨by decide, by decide⟩
  obtain ⟨id, hid, hconstant⟩ := nameCoreClasses_named (m := { heap := ⟨coreSlots⟩ }) c.mem_all
    coreSlots_coreStanding
  have hkept : boot.symbols.find? c.name = some id := by
    rw [boot_eq]
    exact find?_foldl_defineOwn ownMethods hid
  refine .inr ⟨[c.name], List.cons_ne_nil _ _, by simpa using hpart, ?_, .next .here hkept ?_⟩
  · exact String.intercalate_singleton.symm
  · rw [boot_heap]
    exact hconstant

end Machine

/-! ### Runs -/

namespace World

variable {σ : Type} {w w' w₀ : World σ} {v : Value}

/-- A definition gives nothing up, where there was no such constant. -/
theorem keeps_defining {parent : Value} {id : SymbolId}
    (hnew : w.machine.heap.constantAt? parent id = none) (name : String)
    (superclass : Option Value) :
    w.machine.Keeps (w.defining parent id name superclass).machine := by
  let made := w.machine.newModule (some (w.machine.qualifiedName parent name)) superclass
  have hmade : made.2.heap.constantAt? parent id = none := Heap.constantAt?_alloc_of_none hnew _ rfl
  have hset : made.2.heap.KeepsConstants _ := .setConstant hmade made.1
  refine ⟨fun _ _ hid => hid, fun u other c hc => ?_⟩
  exact hset.kept u other c (Heap.constantAt?_alloc_of_some hc _ _)

/-- The only module that is new by a definition is a constant of its parent, and is named after it. -/
theorem module?_defining_new {parent : Value} {id : SymbolId} {name : String}
    {superclass : Option Value} {data : ModuleData} (hbefore : w.machine.heap.module? v = none)
    (hdata : (w.defining parent id name superclass).machine.heap.module? v = some data) :
    data.name = some (w.machine.qualifiedName parent name) ∧
      ∀ above, w.machine.heap.module? parent = some above →
        (w.defining parent id name superclass).machine.heap.constantAt? parent id = some v := by
  let made := w.machine.newModule (some (w.machine.qualifiedName parent name)) superclass
  have hevolves : made.2.heap.Evolves (w.defining parent id name superclass).machine.heap :=
    .changeModule _ _ fun _ => ⟨rfl, rfl, rfl⟩
  have hmiddle : ∃ middle, made.2.heap.module? v = some middle := by
    refine Option.ne_none_iff_exists'.mp fun hnone => ?_
    have hnone' := Heap.module?_changeModule_of_none (v := parent) hnone
      fun data => { data with constants := data.constants.insert id made.1 }
    exact absurd (hnone'.symm.trans hdata) nofun
  obtain ⟨middle, hmade⟩ := hmiddle
  obtain ⟨hplace, hbody⟩ := Heap.module?_alloc_new hbefore hmade
  obtain ⟨later, hlater, hsame⟩ := hevolves.sameModule hmade
  obtain rfl : later = data := Option.some.inj (hlater.symm.trans hdata)
  obtain rfl : v = made.1 := Value.eq_ofSlot hplace
  cases hbody
  refine ⟨hsame.name, fun above habove => ?_⟩
  have hstill : made.2.heap.body? parent = some (.ofModule above) :=
    Heap.body?_alloc_of_some (Heap.module?_eq_some_iff.mp habove) _ _
  exact Heap.constantAt?_setConstant_self (Heap.module?_eq_some_iff.mpr hstill) id made.1

/-- Each stage keeps the names and the constants. -/
theorem Stage.keeps (h : w.Stage w') : w.machine.Keeps w'.machine := by
  refine ⟨fun _ _ hid => h.reaches.find?_kept hid, ?_⟩
  cases h with
  | quiet hreaches hconstants => exact hconstants.kept
  | @define parent id name superclass hname hid hnew =>
      exact (keeps_defining hnew name superclass).constants
  | assign value hnew => exact (Heap.KeepsConstants.setConstant hnew value).kept

/-- A tidy run keeps the names and the constants. -/
theorem Tidy.keeps (h : w.Tidy w') : w.machine.Keeps w'.machine := by
  induction h with
  | refl => exact ⟨fun _ _ hid => hid, fun _ _ _ hc => hc⟩
  | tail _ last ih =>
      exact ⟨fun name id hid => last.keeps.names name id (ih.names name id hid),
        fun u id c hc => last.keeps.constants u id c (ih.constants u id c hc)⟩

/-- **A stage keeps it up that modules are named by their paths.** -/
theorem Stage.namesModules (h : w.Stage w') (hcore : w.machine.heap.CoreStanding)
    (hw : w.machine.NamesModules) : w'.machine.NamesModules := by
  refine hw.of_keeps h.keeps h.reaches.evolves fun v data path hbefore hdata hpath => ?_
  have hunnamed : w.machine.heap.KeepsConstants w'.machine.heap → w'.machine.NamedBy v path := by
    intro hconstants
    rw [hconstants.unnamed v data hbefore hdata] at hpath
    cases hpath
  have hkeeps := h.keeps
  cases h with
  | quiet hreaches hconstants => exact hunnamed hconstants
  | assign value hnew => exact hunnamed (.setConstant hnew value)
  | @define parent id name superclass hname hid hnew =>
      obtain ⟨hnamed, hconstant⟩ := module?_defining_new hbefore hdata
      obtain rfl : w.machine.qualifiedName parent name = path :=
        Option.some.inj (hnamed.symm.trans hpath)
      exact hw.namedBy_qualifiedName hcore hkeeps hname.isPathPart hid hconstant

/-- So modules go on being named by their paths over a tidy run. -/
theorem Tidy.namesModules (h : w.Tidy w') (hcore : w.machine.heap.CoreStanding)
    (hw : w.machine.NamesModules) : w'.machine.NamesModules := by
  induction h with
  | refl => exact hw
  | tail before last ih =>
      have hreaches := (Tidy.stages before).reaches
      exact last.namesModules (hcore.of_evolves hreaches.evolves) ih

/-- A module is shown by its name, if no other method shows it. -/
theorem shows_module (fuel : Nat)
    (hown : w.machine.Answers (w.machine.heap.classOf v) "inspect" .moduleToS)
    (hroom : w.machine.heap.HasRoom 1) :
    w.Shows (fuel + 1) v (w.machine.moduleName v).toList 1 := by
  refine shows_of_answers hown hroom fun method => ⟨[], rfl, ?_⟩
  rw [String.ofList_toList]
  rfl

/-- **A module is found by its name.**  In a run that begins with a fresh interpreter and counts no
constant as overwritten, each module has a name or a text that stands for one.  If all names in it are
such as the host may give, it is a path: at every later moment of the run, as long as no constant is
overwritten and while the interpreter is up, the host that asks for the constant at the end of the path
is given the module, and the module is shown by the path if its class shows it with the method for
modules.

Whatever programs the host runs, and whatever scripts they load, is such a run, and what it counts it
has come to: an assignment to a constant that its module has already. -/
theorem module_found_by_name {data : ModuleData} (hheap : w₀.machine.heap = Machine.boot.heap)
    (hsymbols : w₀.machine.symbols = Machine.boot.symbols) (hagree : w₀.NamesAgree)
    (hrun : w₀.Stages w) (hcount : w.machine.overwrites = w₀.machine.overwrites)
    (hdata : w.machine.heap.module? v = some data)
    (hlegal : ∀ name ∈ Vm.pathNames (w.machine.moduleName v), Vm.isName .constant name = true) :
    (∃ names, names ≠ [] ∧ w.machine.moduleName v = "::".intercalate names ∧
      Vm.pathNames (w.machine.moduleName v) = names) ∧
    (∀ w', w.Stages w' → w'.machine.overwrites = w.machine.overwrites → w'.state = .up →
      (∀ r, ∃ w'', (Operation.constant (w.machine.moduleName v)).answer r w' = .ok (.ok v) w'') ∧
      ∀ fuel, w'.machine.Answers (w'.machine.heap.classOf v) "inspect" .moduleToS →
        w'.machine.heap.HasRoom 1 →
        ∃ w'', (Operation.inspect v).answer (.ofFuel (fuel + 1)) w' =
          .ok (.ok (w.machine.moduleName v)) w'') ∧
    ∀ (u : World σ) fuel role (program : Program σ role),
      let u' := Outcome.world (program.run (.ofFuel fuel) u)
      u.Stages u' ∧ (u'.machine.overwrites = u.machine.overwrites ∨
        ∃ v v', u.Stages v ∧ v.Overwrites v' ∧ v'.Stages u') := by
  have htidy : w₀.Tidy w := hrun.tidy hcount
  have hcore : w₀.machine.heap.CoreStanding := by
    rw [hheap]
    exact Machine.boot_coreStanding
  have hboot : w₀.machine.NamesModules := by
    have hsame : Machine.boot.Keeps w₀.machine := by
      constructor
      · rw [hsymbols]
        exact fun _ _ hid => hid
      · rw [hheap]
        exact fun _ _ _ hc => hc
    intro u found path hfound hpath
    rw [hheap] at hfound
    exact (Machine.boot_namesModules u found path hfound hpath).of_keeps hsame
  obtain ⟨names, hnames, hparts, hpath, hleads⟩ :
      ∃ names, names ≠ [] ∧ (∀ name ∈ names, IsPathPart name) ∧
        w.machine.moduleName v = "::".intercalate names ∧
        w.machine.Leads CoreClass.object.value names v := by
    rcases (htidy.namesModules hcore hboot).namedBy_moduleName v with hsign | hfound
    · obtain ⟨name, hname, hillegal⟩ := Vm.not_isName_of_sign hsign
      rw [hlegal name hname] at hillegal
      cases hillegal
    · exact hfound
  have hread : Vm.pathNames (w.machine.moduleName v) = names := by
    rw [hpath, Vm.pathNames_intercalate hnames hparts]
  refine ⟨⟨names, hnames, hpath, hread⟩, fun w' hrest hsame hup => ⟨fun r => ?_, ?_⟩, ?_⟩
  · have hlater : w.Tidy w' := hrest.tidy hsame
    have hstill := hleads.of_kept hlater.keeps.names hlater.keeps.constants
    have hnumbers := (Stages.reaches (hrun.trans hrest)).namesAgree hagree
    rw [hread] at hlegal
    rw [hpath]
    exact ⟨_, Vm.constant_settled_of_leads hstill hnames hlegal hup hnumbers⟩
  · intro fuel hown hroom
    have hshown := shows_module fuel hown hroom
    have hsame := Machine.moduleName_of_evolves hrest.reaches.evolves hdata
    obtain ⟨w'', hsettled⟩ := hshown.settled_inspect hup
    rw [String.ofList_toList, hsame] at hsettled
    exact ⟨w'', hsettled⟩
  · intro u fuel role program
    have hstages := program.stages_run fuel u
    exact ⟨hstages, hstages.counted_or⟩

/-- The files are no matter of the objects, the names and the methods. -/
theorem sameCore_withFiles (m : Machine) (files : FileTree) :
    ({ m with files } : Machine).heap = m.heap ∧ ({ m with files } : Machine).symbols = m.symbols ∧
      ({ m with files } : Machine).methods = m.methods :=
  ⟨rfl, rfl, rfl⟩

/-- Two scripts.  One opens a module in the body of a class; the other opens the class again, and gives
the module two more names. -/
def namingScripts : FileTree :=
  let opening := "class Outer\nmodule Inner\nend\nend\n"
  let naming := "class Outer\nAgain = Inner\nend\nOnce = Outer::Again\n"
  { nodes := [(["work", "opening.rb"], .file opening.toUTF8.toList),
      (["work", "naming.rb"], .file naming.toUTF8.toList)] }

/-- A fresh interpreter with these scripts. -/
def scripted : World Unit :=
  { memory := (), machine := { Machine.boot with files := namingScripts } }

/-- The world after the host has loaded a script. -/
def loading (path : String) (w : World Unit) : World Unit :=
  let program : Program Unit .main := .ask (.load path.toUTF8.toList false) fun _ => .done ()
  Outcome.world (program.run (.ofFuel 4) w)

/-- Loading a script comes to stages, and to assignments perhaps. -/
theorem stages_loading (w : World Unit) (path : String) : w.Stages (w.loading path) :=
  Program.stages_run 4 _ w

/-- Loading a script is a run. -/
theorem reaches_loading {w : World Unit} (hw : w.HostCode NoProbes) (path : String) :
    w.Reaches NoProbes (w.loading path) := by
  let program : Program Unit .main := .ask (.load path.toUTF8.toList false) fun _ => .done ()
  have hprogram : program.Uses NoProbes := fun _ => trivial
  exact (program.settles_run (Reentry.follows_ofFuel NoProbes 4) hprogram w hw).follows.reaches

/-- The module in the class.  The scripts' first object is the path of the first of them, and the second
one is the class. -/
def inner : Value := Value.ofSlot (CoreClass.all.length + 2)

/-- The world after the first script. -/
def opened : World Unit :=
  scripted.loading "opening.rb"

/-- The world after both. -/
def named : World Unit :=
  opened.loading "naming.rb"

/-- What the two scripts lead to. -/
theorem opened_named :
    (opened.machine.overwrites = scripted.machine.overwrites ∧
      named.machine.overwrites = opened.machine.overwrites) ∧
    (opened.state = .up ∧ named.state = .up) ∧
    opened.machine.moduleName inner = "Outer::Inner" ∧ (opened.machine.heap.module? inner).isSome ∧
    (named.machine.symbols.find? "Once").map (named.machine.heap.constantAt? CoreClass.object.value) =
      some (some inner) ∧
    (opened.machine.heap.HasRoom 1 ∧ named.machine.heap.HasRoom 1) ∧
    opened.machine.heap.classOf inner = CoreClass.moduleClass.value ∧
    named.machine.heap.classOf inner = CoreClass.moduleClass.value := by
  decide +kernel

/-- After the first script the module is found and shown by its name, and so it is after the second
one, by which it is a constant of `Object`, too. -/
theorem module_found_by_name_inner :
    opened.machine.overwrites = scripted.machine.overwrites ∧
    named.machine.overwrites = opened.machine.overwrites ∧
    opened.machine.moduleName inner = "Outer::Inner" ∧
    (∃ id, named.machine.symbols.find? "Once" = some id ∧
      named.machine.heap.constantAt? CoreClass.object.value id = some inner) ∧
    ∀ w ∈ [opened, named],
      (∃ w', (Operation.constant "Outer::Inner").answer (.ofFuel 0) w = .ok (.ok inner) w') ∧
      ∃ w', (Operation.inspect inner).answer (.ofFuel 1) w = .ok (.ok "Outer::Inner") w' := by
  obtain ⟨⟨hcount, hcount'⟩, ⟨hup, hup'⟩, hname, hmodule, honce, ⟨hroom, hroom'⟩, hcls, hcls'⟩ :=
    opened_named
  have hrun : scripted.Stages opened := scripted.stages_loading "opening.rb"
  have hrest : opened.Stages named := opened.stages_loading "naming.rb"
  obtain ⟨data, hdata⟩ := Option.isSome_iff_exists.mp hmodule
  have hlegal : ∀ name ∈ Vm.pathNames "Outer::Inner", Vm.isName .constant name = true := by
    decide +kernel
  obtain ⟨hheap, hsymbols, hmethods⟩ : scripted.machine.heap = Machine.boot.heap ∧
      scripted.machine.symbols = Machine.boot.symbols ∧
      scripted.machine.methods = Machine.boot.methods := sameCore_withFiles Machine.boot namingScripts
  obtain ⟨-, hfound, -⟩ := module_found_by_name hheap hsymbols (namesAgree_of_unasked rfl) hrun hcount
    hdata (hname ▸ hlegal)
  rw [hname] at hfound
  -- The host defines no methods, so that modules are shown by their own.
  have hcode : scripted.HostCode NoProbes := hostCode_bare.of_eq rfl rfl rfl
  have hreaches : scripted.Reaches NoProbes opened := reaches_loading hcode "opening.rb"
  have hreaches' : scripted.Reaches NoProbes named :=
    hreaches.trans (reaches_loading (hreaches.hostCode hcode) "naming.rb")
  have hown : scripted.machine.Answers CoreClass.moduleClass.value "inspect" .moduleToS := by
    have hboot : Machine.boot.Answers CoreClass.moduleClass.value "inspect" .moduleToS :=
      Machine.boot_answers (by decide)
    refine hboot.of_kept ?_ fun id hid => ⟨?_, fun _ => ?_⟩
    · rw [hheap]
      exact .refl _
    · rw [hsymbols, hid]
    · rw [hmethods]
  have hshown := hreaches.answers (fun _ hprobe => hprobe.elim) hown
  have hshown' := hreaches'.answers (fun _ hprobe => hprobe.elim) hown
  refine ⟨hcount, hcount', hname, Option.map_eq_some_iff.mp honce, ?_⟩
  intro w hw
  rcases List.mem_pair.mp hw with rfl | rfl
  · obtain ⟨hgiven, hinspected⟩ := hfound opened .refl rfl hup
    exact ⟨hgiven (.ofFuel 0), hinspected 0 (hcls ▸ hshown) hroom⟩
  · obtain ⟨hgiven, hinspected⟩ := hfound named hrest hcount' hup'
    exact ⟨hgiven (.ofFuel 0), hinspected 0 (hcls' ▸ hshown') hroom'⟩

end World

end EmbeddedRuby
