import EmbeddedRuby.Proofs.Description

/-!
# The interpreter's own methods

What a fresh interpreter answers under a name can be read off the table of its own methods
(`CoreClass.ownMethod?`): the class is looked at first, and then those above it, and in the machine
nothing else is found (`Machine.boot_answers`).  No run takes a method away, but the host can put
another in its place by a probe; where it puts none under a name, what was answered under that name
is answered still (`World.Reaches.answers`).

So exceptions are described by the interpreter's own methods as long as the host defines none of the
names that describe them (`World.Reaches.ownDescriptions`).
-/

namespace EmbeddedRuby

/-! ### The table -/

/-- The method that a list has for a class under a name; a later entry replaces an earlier one. -/
def listedMethod? (entries : List (CoreClass × String × Builtin)) (c : CoreClass) (name : String) :
    Option Builtin :=
  (entries.reverse.find? fun entry => entry.1 = c ∧ entry.2.1 = name).map fun entry => entry.2.2

theorem listedMethod?_cons (entry : CoreClass × String × Builtin)
    (rest : List (CoreClass × String × Builtin)) (c : CoreClass) (name : String) :
    listedMethod? (entry :: rest) c name =
      (listedMethod? rest c name).or
        (if entry.1 = c ∧ entry.2.1 = name then some entry.2.2 else none) := by
  unfold listedMethod?
  rw [List.reverse_cons, List.find?_append, Option.map_or]
  congr 1
  by_cases hentry : entry.1 = c ∧ entry.2.1 = name
  · simp [hentry]
  · simp [hentry]

namespace CoreClass

/-- The class and those above it, at most `fuel` of them, nearest first. -/
def chain : Nat → CoreClass → List CoreClass
  | 0, c => [c]
  | fuel + 1, c =>
    match c.superclass? with
    | some parent => c :: chain fuel parent
    | none => [c]

/-- The method that the table has under a name for a class or for the nearest class above it. -/
def ownMethod? (c : CoreClass) (name : String) : Option Builtin :=
  (c.chain all.length).findSome? fun module => listedMethod? ownMethods module name

theorem value_inj {c d : CoreClass} : c.value = d.value ↔ c = d := by
  constructor
  · intro h
    have hsmall : ∀ c : CoreClass, Value.heapBase + c.slot * 8 < 0x10000000000000000 := by
      intro c
      cases c <;> decide
    have hslot : some c.slot = some d.slot := by
      rw [← Value.slot?_ofSlot (hsmall c), ← Value.slot?_ofSlot (hsmall d)]
      exact congrArg Value.slot? h
    have hsame := getElem?_all_slot c
    rw [Option.some.inj hslot, getElem?_all_slot d] at hsame
    exact (Option.some.inj hsame).symm
  · rintro rfl
    rfl

end CoreClass

/-- Above a core class stand the classes that stand above it in the list. -/
theorem Heap.CoreStanding.chain {h : Heap} (hcore : h.CoreStanding) (fuel : Nat) (c : CoreClass) :
    h.chain fuel c.value = (c.chain fuel).map CoreClass.value := by
  induction fuel generalizing c with
  | zero => rfl
  | succ fuel ih =>
      unfold Heap.chain CoreClass.chain
      rw [hcore.parent c]
      cases c.superclass? with
      | none => rfl
      | some parent => exact congrArg (List.cons c.value) (ih parent)

/-! ### A fresh interpreter -/

namespace Machine

variable {m : Machine}

theorem find?_foldl_defineOwn (entries : List (CoreClass × String × Builtin)) {name : String}
    {id : SymbolId} (hname : m.symbols.find? name = some id) :
    (entries.foldl defineOwn m).symbols.find? name = some id := by
  induction entries generalizing m with
  | nil => exact hname
  | cons entry rest ih =>
      exact ih (m := m.defineOwn entry) (SymbolTable.find?_intern_of_find? hname entry.2.1)

/-- The names of the methods that were defined have numbers. -/
theorem exists_find?_foldl_defineOwn {entries : List (CoreClass × String × Builtin)} {c : CoreClass}
    {name : String} {b : Builtin} (hentry : (c, name, b) ∈ entries) :
    ∃ id, (entries.foldl defineOwn m).symbols.find? name = some id := by
  induction entries generalizing m with
  | nil => cases hentry
  | cons entry rest ih =>
      rcases List.mem_cons.mp hentry with rfl | hrest
      · exact ⟨_, find?_foldl_defineOwn rest (m.symbols.find?_intern_self name)⟩
      · exact ih hrest

/-- The method that a class has is the one that was listed last, or the one that it had before. -/
theorem get?_foldl_defineOwn (entries : List (CoreClass × String × Builtin)) (c : CoreClass)
    {name : String} {id : SymbolId}
    (hname : (entries.foldl defineOwn m).symbols.find? name = some id) :
    (entries.foldl defineOwn m).methods.get? (c.value, id) =
      ((listedMethod? entries c name).map Method.builtin).or (m.methods.get? (c.value, id)) := by
  induction entries generalizing m with
  | nil => rfl
  | cons entry rest ih =>
      -- At the end a number belongs to one name only.
      have hentry : ((entry :: rest).foldl defineOwn m).symbols.find? entry.2.1 =
          some (m.symbols.intern entry.2.1).1 :=
        find?_foldl_defineOwn rest (m.symbols.find?_intern_self entry.2.1)
      have hnumber : (m.symbols.intern entry.2.1).1 = id ↔ entry.2.1 = name := by
        constructor
        · rintro rfl
          exact (SymbolTable.name_of_find? hentry).symm.trans (SymbolTable.name_of_find? hname)
        · rintro rfl
          exact Option.some.inj (hentry.symm.trans hname)
      have hdefined : (m.defineOwn entry).methods.get? (c.value, id) =
          if entry.1 = c ∧ entry.2.1 = name then some (.builtin entry.2.2)
          else m.methods.get? (c.value, id) := by
        change (m.methods.insert (entry.1.value, (m.symbols.intern entry.2.1).1)
          (Method.builtin entry.2.2)).get? (c.value, id) = _
        by_cases hkey : entry.1 = c ∧ entry.2.1 = name
        · rw [if_pos hkey, hnumber.mpr hkey.2, hkey.1, Table.get?_insert_self]
        · rw [if_neg hkey, Table.get?_insert_of_ne]
          intro hsame
          obtain ⟨hclass, hid⟩ := Prod.mk.inj hsame
          exact hkey ⟨(CoreClass.value_inj.mp hclass).symm, hnumber.mp hid.symm⟩
      rw [List.foldl_cons] at hname ⊢
      rw [ih hname, listedMethod?_cons, hdefined]
      cases listedMethod? rest c name with
      | some b => rfl
      | none => split <;> rfl

/-- What a machine with the methods of the table finds is what the table says. -/
theorem findMethod_of_table {c : CoreClass} {name : String} {id : SymbolId}
    (hcore : m.heap.CoreStanding) (hsize : m.heap.slots.size = CoreClass.all.length)
    (hmethods : ∀ module : CoreClass, m.methods.get? (module.value, id) =
      (listedMethod? ownMethods module name).map Method.builtin) :
    m.findMethod c.value id = (c.ownMethod? name).map Method.builtin := by
  have htable : (fun module => m.methods.get? (module, id)) ∘ CoreClass.value =
      Option.map Method.builtin ∘ fun module => listedMethod? ownMethods module name :=
    funext hmethods
  unfold findMethod Heap.ancestors CoreClass.ownMethod?
  rw [hsize, hcore.chain, List.findSome?_map, htable, List.map_findSome?]

/-- In a fresh interpreter the classes have the methods of the table. -/
theorem boot_get? {name : String} {id : SymbolId} (hid : boot.symbols.find? name = some id)
    (c : CoreClass) :
    boot.methods.get? (c.value, id) = (listedMethod? ownMethods c name).map Method.builtin := by
  rw [boot_eq] at hid ⊢
  obtain ⟨heap, symbols, hclasses, -⟩ := bootClasses_frame
  have hnone : bootClasses.methods.get? (c.value, id) = none := by
    rw [hclasses]
    rfl
  rw [get?_foldl_defineOwn ownMethods c hid, hnone, Option.or_none]

/-- **What the table says of a class, a fresh interpreter answers.** -/
theorem boot_answers {c : CoreClass} {name : String} {b : Builtin}
    (hown : c.ownMethod? name = some b) : boot.Answers c.value name b := by
  -- The name has a number, since some class has a method under it.
  obtain ⟨id, hid⟩ : ∃ id, boot.symbols.find? name = some id := by
    obtain ⟨module, -, hlisted⟩ := List.exists_of_findSome?_eq_some hown
    obtain ⟨entry, hentry, -⟩ := Option.map_eq_some_iff.mp hlisted
    have hfound := List.find?_some hentry
    have hname : entry.2.1 = name := (of_decide_eq_true hfound).2
    have hmem : entry ∈ ownMethods := List.mem_reverse.mp (List.mem_of_find?_eq_some hentry)
    rw [boot_eq, ← hname]
    exact exists_find?_foldl_defineOwn hmem
  refine ⟨id, hid, ?_⟩
  rw [findMethod_of_table boot_coreStanding boot_size (boot_get? hid), hown]
  rfl

end Machine

/-- A fault becomes an exception. -/
theorem Fault.exception_mem_chain (fault : Fault) :
    CoreClass.exception ∈ fault.cls.chain CoreClass.all.length := by
  cases fault <;> simp only [Fault.cls] <;> decide

/-- In a fresh interpreter exceptions are described by its own methods. -/
theorem Machine.ownDescriptions_boot : Machine.boot.OwnDescriptions := by
  have hexceptions : ∀ c : CoreClass, .exception ∈ c.chain CoreClass.all.length →
      c.ownMethod? "inspect" = some .exceptionInspect ∧ c.ownMethod? "to_s" = some .exceptionToS ∧
        c.ownMethod? "backtrace" = some .exceptionBacktrace := by
    intro c
    cases c <;> decide +kernel
  exact {
    shown := fun fault => boot_answers (hexceptions fault.cls fault.exception_mem_chain).1
    text := fun fault => boot_answers (hexceptions fault.cls fault.exception_mem_chain).2.1
    traced := fun fault => boot_answers (hexceptions fault.cls fault.exception_mem_chain).2.2
    joined := boot_answers (by decide +kernel) }

/-! ### In the course of a run -/

/-- The probe puts nothing in the place of a method of this name. -/
def Probe.Spares (name : String) : Probe → Prop
  | .define _ other _ => other ≠ name
  | _ => True

namespace World

variable {σ : Type} {P : Probe → Prop} {w w' : World σ} {name : String} {id : SymbolId}

theorem Step.methods_eq (h : w.Step w') : w'.machine.methods = w.machine.methods := by
  cases h with
  | machine h => rw [h.frame]
  | setup hunknown hstart =>
      cases (Vm.start_cases hstart).2 with
      | refused | badArguments => rfl
      | @ran arguments =>
          obtain ⟨loadPath, heq⟩ := w.machine.setUp.2.options_eq arguments
          simp only [heq]
          rfl
  | record | clearErrors | learn | remember | boxed | unboxed | cleanUp => rfl

/-- Where the host spares a name, the classes have the methods under it that they had. -/
theorem Change.get?_kept (h : w.Change P w') (hspared : ∀ probe, P probe → probe.Spares name)
    (hname : w.machine.symbols.find? name = some id) (module : Value) :
    w'.machine.methods.get? (module, id) = w.machine.methods.get? (module, id) := by
  cases h with
  | step h => rw [h.methods_eq]
  | @register kind run => rw [setCallback_machine]
  | probe hprobe h =>
      cases h with
      | options w argv =>
          obtain ⟨loadPath, heq⟩ := w.machine.options_eq argv
          simp only [heq]
      | define w cls other body =>
          -- Another name has another number.
          have hother : other ≠ name := hspared _ hprobe
          have hnumber := w.machine.symbols.name_intern other
          have hkept := SymbolTable.find?_intern_of_find? hname other
          refine Table.get?_insert_of_ne w.machine.methods _ fun hsame => hother ?_
          have hid : id = (w.machine.symbols.intern other).1 := (Prod.mk.inj hsame).2
          rw [← hnumber, ← hid]
          exact SymbolTable.name_of_find? hkept
      | setPending | takePrinted => rfl
  | raising fault =>
      have hmethods := Machine.Steps.methods_eq (w.machine.newException_steps fault)
      exact congrArg (fun methods => methods.get? (module, id)) hmethods
  | @raisingObject exception =>
      have hmethods := w.machine.fillBacktrace_methods exception
      exact congrArg (fun methods => methods.get? (module, id)) hmethods
  | overlook => rw [overlook_machine]
  | addProc | restack | withoutPending | park | resume => rfl

/-- **What is answered under a name that the host spares is answered still.** -/
theorem Reaches.answers {cls : Value} {b : Builtin} (h : w.Reaches P w')
    (hspared : ∀ probe, P probe → probe.Spares name) (hw : w.machine.Answers cls name b) :
    w'.machine.Answers cls name b := by
  let Kept : World σ → Prop := fun u => u.machine.Answers cls name b
  have hstep : ∀ {u u' : World σ}, u.Change P u' → Kept u → Kept u' := fun hchange hu =>
    hu.of_kept hchange.evolves fun _ hid =>
      ⟨hchange.find?_kept hid, hchange.get?_kept hspared hid⟩
  exact h.kept hstep hw

/-- The names of the methods that describe exceptions. -/
def describingMethods : List String := ["inspect", "to_s", "backtrace", "join"]

/-- Exceptions go on being described by the interpreter's own methods where the host spares the names
of these. -/
theorem Reaches.ownDescriptions (h : w.Reaches P w')
    (hspared : ∀ name ∈ describingMethods, ∀ probe, P probe → probe.Spares name)
    (hw : w.machine.OwnDescriptions) : w'.machine.OwnDescriptions where
  shown := fun fault => h.answers (hspared _ (by decide)) (hw.shown fault)
  text := fun fault => h.answers (hspared _ (by decide)) (hw.text fault)
  traced := fun fault => h.answers (hspared _ (by decide)) (hw.traced fault)
  joined := h.answers (hspared _ (by decide)) hw.joined

end World

end EmbeddedRuby
