import EmbeddedRuby.Proofs.Evolution
import EmbeddedRuby.Proofs.Objects

/-!
# The core classes

The core classes of a fresh interpreter stand as they are listed (`Machine.boot_coreStanding`); it has
them and their methods and nothing else (`Machine.boot_frame`).  A run takes no class away and gives
none another superclass, so they go on standing like that (`Heap.CoreStanding.of_evolves`), and so
does what follows from it: nil is no exception (`Heap.CoreStanding.not_isKindOf_nil`).
-/

namespace EmbeddedRuby

namespace Heap

/-- The core classes have the superclasses that they were made with. -/
def CoreStanding (h : Heap) : Prop :=
  ∀ c : CoreClass,
    (h.module? c.value).map ModuleData.superclass = some (c.superclass?.map CoreClass.value)

/-- The core classes go on standing as the heap evolves. -/
theorem CoreStanding.of_evolves {h h' : Heap} (hcore : h.CoreStanding) (hevolves : h.Evolves h') :
    h'.CoreStanding := by
  intro c
  obtain ⟨data, hdata, hsuper⟩ := Option.map_eq_some_iff.mp (hcore c)
  obtain ⟨data', hdata', hsuper'⟩ := hevolves.module? hdata
  rw [hdata', Option.map_some, hsuper', hsuper]

/-- Going up from a core class leads to its superclass. -/
theorem CoreStanding.parent {h : Heap} (hcore : h.CoreStanding) (c : CoreClass) :
    (h.module? c.value).bind ModuleData.superclass = c.superclass?.map CoreClass.value := by
  obtain ⟨data, hdata, hsuper⟩ := Option.map_eq_some_iff.mp (hcore c)
  rw [hdata, Option.bind_some, hsuper]

/-- Nil is no exception. -/
theorem CoreStanding.not_isKindOf_nil {h : Heap} (hcore : h.CoreStanding) :
    h.isKindOf Value.nil CoreClass.exception.value = false := by
  have hclass : h.classOf Value.nil = CoreClass.nilClass.value := rfl
  have htop : ∀ fuel, h.chain fuel CoreClass.object.value = [CoreClass.object.value] := by
    intro fuel
    cases fuel with
    | zero => rfl
    | succ fuel =>
        unfold chain
        rw [hcore.parent .object]
        rfl
  unfold isKindOf isSubclass ancestors
  rw [hclass]
  cases h.slots.size with
  | zero => rfl
  | succ fuel =>
      unfold chain
      rw [hcore.parent .nilClass]
      simp only [CoreClass.superclass?, Option.map_some, htop]
      rfl

end Heap

/-! ### A fresh interpreter -/

/-- The interpreter's own methods, one by one, in the order in which they are defined. -/
def ownMethods : List (CoreClass × String × Builtin) :=
  builtinMethods.flatMap fun entry => entry.2.map fun method => (entry.1, method)

namespace Machine

/-- The core classes are made with the superclasses that they are listed with. -/
theorem coreSlots_coreStanding : Heap.CoreStanding ⟨coreSlots⟩ := by
  intro c
  cases c <;> rfl

/-- The machine with one more method of its own. -/
def defineOwn (m : Machine) (entry : CoreClass × String × Builtin) : Machine :=
  m.define entry.1.value entry.2.1 (.builtin entry.2.2)

/-- The core classes of a fresh interpreter have their names, but no methods yet. -/
def bootClasses : Machine :=
  CoreClass.all.foldl nameCoreClass { heap := ⟨coreSlots⟩ }

/-- A fresh interpreter is made by defining its own methods one by one. -/
theorem boot_eq : boot = ownMethods.foldl defineOwn bootClasses := by
  unfold boot ownMethods
  rw [List.foldl_flatMap]
  simp only [List.foldl_map]
  rfl

/-- Naming a core class makes no object. -/
theorem nameCoreClass_size (m : Machine) (c : CoreClass) :
    (m.nameCoreClass c).heap.slots.size = m.heap.slots.size := by
  unfold nameCoreClass Heap.setConstant Heap.changeModule Heap.setBody
  dsimp only
  split
  · split
    · exact Array.size_modify
    · rfl
  · rfl

/-- Naming a core class sets a constant of `Object`, and changes nothing else about the objects. -/
theorem nameCoreClass_evolves (m : Machine) (c : CoreClass) :
    m.heap.Evolves (m.nameCoreClass c).heap :=
  .changeModule m.heap _ fun _ => ⟨rfl, rfl, rfl⟩

/-- Naming core classes adds constants, and no objects. -/
theorem nameCoreClasses_frame (classes : List CoreClass) (m : Machine) :
    ∃ heap symbols, classes.foldl nameCoreClass m = { m with heap, symbols } ∧
      heap.slots.size = m.heap.slots.size ∧ m.heap.Evolves heap := by
  induction classes generalizing m with
  | nil => exact ⟨m.heap, m.symbols, rfl, rfl, .refl m.heap⟩
  | cons c rest ih =>
      obtain ⟨heap, symbols, heq, hsize, hevolves⟩ := ih (m.nameCoreClass c)
      exact ⟨heap, symbols, heq, hsize.trans (m.nameCoreClass_size c),
        (m.nameCoreClass_evolves c).trans hevolves⟩

/-- Defining methods concerns names and methods only. -/
theorem defineOwns_frame (entries : List (CoreClass × String × Builtin)) (m : Machine) :
    ∃ symbols methods, entries.foldl defineOwn m = { m with symbols, methods } := by
  induction entries generalizing m with
  | nil => exact ⟨m.symbols, m.methods, rfl⟩
  | cons entry rest ih => exact ih (m.defineOwn entry)

/-- Before that there are the core classes and their names, and nothing else. -/
theorem bootClasses_frame :
    ∃ heap symbols, bootClasses = { heap, symbols } ∧ heap.slots.size = CoreClass.all.length ∧
      heap.CoreStanding := by
  obtain ⟨heap, symbols, heq, hsize, hevolves⟩ :=
    nameCoreClasses_frame CoreClass.all { heap := ⟨coreSlots⟩ }
  exact ⟨heap, symbols, heq, hsize, coreSlots_coreStanding.of_evolves hevolves⟩

/-- A fresh interpreter has core classes, names and methods, and nothing else. -/
theorem boot_frame :
    ∃ heap symbols methods, boot = { heap, symbols, methods } ∧
      heap.slots.size = CoreClass.all.length ∧ heap.CoreStanding := by
  obtain ⟨heap, named, hclasses, hheap⟩ := bootClasses_frame
  obtain ⟨symbols, methods, hmethods⟩ := defineOwns_frame ownMethods bootClasses
  refine ⟨heap, symbols, methods, ?_, hheap⟩
  rw [boot_eq, hmethods, hclasses]

/-- Since the core classes were made, they were named and nothing else happened to them. -/
theorem boot_evolves : Heap.Evolves ⟨coreSlots⟩ boot.heap := by
  obtain ⟨heap, symbols, hclasses, -, hevolves⟩ :=
    nameCoreClasses_frame CoreClass.all { heap := ⟨coreSlots⟩ }
  obtain ⟨symbols, methods, hmethods⟩ := defineOwns_frame ownMethods bootClasses
  rw [boot_eq, hmethods, bootClasses, hclasses]
  exact hevolves

/-- A fresh interpreter has no objects but the core classes. -/
theorem boot_size : boot.heap.slots.size = CoreClass.all.length := by
  obtain ⟨heap, symbols, methods, heq, hsize, -⟩ := boot_frame
  rw [heq, hsize]

/-- The first object that is made in it. -/
def firstMade : Value :=
  Value.ofSlot CoreClass.all.length

/-- The core classes of a fresh interpreter stand as they are listed. -/
theorem boot_coreStanding : boot.heap.CoreStanding := by
  obtain ⟨heap, symbols, methods, heq, -, hcore⟩ := boot_frame
  rw [heq]
  exact hcore

end Machine

end EmbeddedRuby
