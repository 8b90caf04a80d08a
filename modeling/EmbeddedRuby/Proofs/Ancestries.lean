import EmbeddedRuby.Proofs.HashMaps

/-!
# The way up from a class

Methods, constants and class variables are looked for by going from a class to its superclass for as
long as there is one, and nothing in that loop says that it ends.  It does (`Heap.Founded.climbs`):
nobody can name an object that does not exist yet, so a superclass in the heap was there before the
class (`Heap.Founded`), and this is kept by whatever is done to the objects (`Heap.Act.founded`).

A way up that ends comes to nothing twice (`Heap.Climbs.nodup`), and goes on from each thing on it as the
way up from there (`Heap.Climbs.suffix`).  So being a subclass is a partial order.

The main statement is `World.ways_up_end`.
-/

namespace EmbeddedRuby

open Eval

namespace Heap

variable {h h' : Heap} {a b v parent : Value} {way other : List Value}

/-! ### Going up -/

/-- The superclass of what a word refers to; only classes have one. -/
def superclass? (h : Heap) (v : Value) : Option Value :=
  (h.module? v).bind ModuleData.superclass

/-- The loop that notes a module and goes on to its superclass, as long as there is one, comes to an end,
and these modules are noted. -/
inductive Climbs (h : Heap) : Value → List Value → Prop
  | top {v : Value} (hend : h.superclass? v = none) : Climbs h v [v]
  | up {v parent : Value} {way : List Value} (hup : h.superclass? v = some parent)
      (hrest : Climbs h parent way) : Climbs h v (v :: way)

namespace Climbs

/-- A way up begins with the module itself. -/
theorem exists_cons (hway : h.Climbs v way) : ∃ above, way = v :: above := by
  cases hway with
  | top => exact ⟨[], rfl⟩
  | up => exact ⟨_, rfl⟩

/-- The loop comes to one end. -/
theorem unique (hway : h.Climbs v way) (hother : h.Climbs v other) : way = other := by
  induction hway generalizing other with
  | top hend =>
      cases hother with
      | top => rfl
      | up hup =>
          rw [hend] at hup
          cases hup
  | up hup hrest ih =>
      cases hother with
      | top hend =>
          rw [hend] at hup
          cases hup
      | up hup' hrest' =>
          obtain rfl := Option.some.inj (hup.symm.trans hup')
          rw [ih hrest']

/-- From whatever is on the way up, the way up is what is left of it. -/
theorem suffix (hway : h.Climbs v way) (ha : a ∈ way) : ∃ rest, h.Climbs a rest ∧ rest <:+ way := by
  induction hway with
  | top hend =>
      obtain rfl := List.mem_singleton.mp ha
      exact ⟨_, .top hend, List.suffix_rfl⟩
  | up hup hrest ih =>
      rcases List.mem_cons.mp ha with rfl | habove
      · exact ⟨_, .up hup hrest, List.suffix_rfl⟩
      · obtain ⟨rest, hfrom, hsuffix⟩ := ih habove
        exact ⟨rest, hfrom, hsuffix.trans (List.suffix_cons _ _)⟩

/-- Nothing comes twice on a way that ends: the way up from there would be longer than itself. -/
theorem nodup (hway : h.Climbs v way) : way.Nodup := by
  induction hway with
  | top => exact List.pairwise_singleton _ _
  | @up v parent way hup hrest ih =>
      refine List.nodup_cons.mpr ⟨fun hagain => ?_, ih⟩
      obtain ⟨rest, hfrom, hsuffix⟩ := hrest.suffix hagain
      obtain rfl : v :: way = rest := (Climbs.up hup hrest).unique hfrom
      have hlength := hsuffix.length_le
      rw [List.length_cons] at hlength
      omega

/-- Of two things on ways up from each other, each is the other one. -/
theorem eq_of_mem_of_mem (ha : h.Climbs a way) (hb : h.Climbs b other) (hab : b ∈ way)
    (hba : a ∈ other) : a = b := by
  obtain ⟨rest, hfromB, hsuffix⟩ := ha.suffix hab
  obtain ⟨rest', hfromA, hsuffix'⟩ := hb.suffix hba
  obtain rfl := hb.unique hfromB
  obtain rfl := ha.unique hfromA
  obtain rfl : other = way := hsuffix.eq_of_length (Nat.le_antisymm hsuffix.length_le hsuffix'.length_le)
  obtain ⟨above, hheadA⟩ := ha.exists_cons
  obtain ⟨above', hheadB⟩ := hb.exists_cons
  exact (List.cons.inj (hheadA.symm.trans hheadB)).1

end Climbs

/-! ### Superclasses come first -/

/-- A superclass that is in the heap was there before the class. -/
def Founded (h : Heap) : Prop :=
  h.Each fun place slot => ∀ data, slot.body = .ofModule data → Within place data.superclass

/-- Superclasses stay before their classes where no place is added. -/
theorem Founded.of_size (hfounded : h.Founded) (hevolves : h.Evolves h')
    (hsize : h'.slots.size = h.slots.size) : h'.Founded := by
  refine Each.of_size hfounded (fun {place cls b b'} hb hbecomes data' hdata' => ?_) hevolves hsize
  cases hbecomes with
  | same => exact hb data' hdata'
  | module hname hclass hsuper =>
      cases hdata'
      rw [hsuper]
      exact hb _ rfl
  | array | hash | exception => cases hdata'

/-- **Every act leaves superclasses before their classes**: a new class is put below something that is
known, and no class gets another superclass. -/
theorem Act.founded (hact : h.Act h') (hfounded : h.Founded) : h'.Founded := by
  rcases hact.adds with hsize | ⟨cls, b, -, ⟨-, hb⟩, hevolves, hsize⟩
  · exact hfounded.of_size hact.evolves hsize
  · have hmade : (h.alloc cls b).2.Founded := by
      refine Each.alloc hfounded fun data hdata => ?_
      obtain rfl : b = .ofModule data := hdata
      exact hb.1
    exact hmade.of_size hevolves hsize

/-- Superclasses stay before their classes over every development. -/
theorem Develops.founded (hdevelops : h.Develops h') (hfounded : h.Founded) : h'.Founded := by
  induction hdevelops with
  | refl => exact hfounded
  | tail _ last ih => exact last.founded ih

/-- What has a superclass is in the heap. -/
theorem exists_place_of_superclass? (hup : h.superclass? v = some parent) :
    ∃ place, v.slot? = some place ∧ place < h.slots.size := by
  obtain ⟨data, hdata, -⟩ := Option.bind_eq_some_iff.mp hup
  obtain ⟨place, slot, hplace, hslot, -⟩ := exists_place (module?_eq_some_iff.mp hdata)
  exact ⟨place, hplace, (Array.getElem?_eq_some_iff.mp hslot).1⟩

/-- A class is below those on its way up. -/
theorem isSubclass_iff : h.isSubclass a b = true ↔ b ∈ h.ancestors a :=
  List.contains_iff_mem

/-- Every class is below itself. -/
theorem isSubclass_refl (h : Heap) (a : Value) : h.isSubclass a a = true := by
  obtain ⟨above, habove⟩ := h.ancestors_eq_cons a
  rw [isSubclass_iff, habove]
  exact List.mem_cons_self

namespace Founded

/-- A superclass stands in an earlier place than the class. -/
theorem superclass?_lt (hfounded : h.Founded) {place below : Nat} (hup : h.superclass? v = some parent)
    (hplace : v.slot? = some place) (hbelow : parent.slot? = some below) : below < place := by
  obtain ⟨data, hdata, hsuper⟩ := Option.bind_eq_some_iff.mp hup
  obtain ⟨place', slot, hplace', hslot, hbody⟩ := exists_place (module?_eq_some_iff.mp hdata)
  obtain rfl : place' = place := Option.some.inj (hplace'.symm.trans hplace)
  exact hfounded place' slot hslot data hbody parent hsuper below hbelow

/-- Places on the way up come earlier and earlier, so there are rounds enough to come to the end. -/
theorem climbs_chain (hfounded : h.Founded) {fuel : Nat}
    (hfuel : ∀ place, v.slot? = some place → (h.superclass? v).isSome → place < fuel) :
    h.Climbs v (h.chain fuel v) := by
  induction fuel generalizing v with
  | zero =>
      refine .top ?_
      cases hup : h.superclass? v with
      | none => rfl
      | some parent =>
          obtain ⟨place, hplace, -⟩ := exists_place_of_superclass? hup
          have hlt := hfuel place hplace (by rw [hup, Option.isSome_some])
          omega
  | succ fuel ih =>
      unfold chain
      cases hup : h.superclass? v with
      | none =>
          unfold superclass? at hup
          rw [hup]
          exact .top hup
      | some parent =>
          obtain ⟨place, hplace, -⟩ := exists_place_of_superclass? hup
          have hlt := hfuel place hplace (by rw [hup, Option.isSome_some])
          have hrest : h.Climbs parent (h.chain fuel parent) := by
            refine ih fun below hbelow _ => ?_
            have hbefore := hfounded.superclass?_lt hup hplace hbelow
            omega
          have hnext := Climbs.up hup hrest
          unfold superclass? at hup
          rw [hup]
          exact hnext

/-- **The loop ends**, and what it notes is found in as many rounds as there are slots, or more. -/
theorem climbs (hfounded : h.Founded) {fuel : Nat} (hfuel : h.slots.size ≤ fuel) (v : Value) :
    h.Climbs v (h.chain fuel v) := by
  refine hfounded.climbs_chain fun place hplace hsome => ?_
  obtain ⟨parent, hup⟩ := Option.isSome_iff_exists.mp hsome
  obtain ⟨place', hplace', hlt⟩ := exists_place_of_superclass? hup
  obtain rfl : place' = place := Option.some.inj (hplace'.symm.trans hplace)
  omega

/-- The loop ends with the modules that the interpreter goes through. -/
theorem climbs_ancestors (hfounded : h.Founded) (v : Value) : h.Climbs v (h.ancestors v) :=
  hfounded.climbs (Nat.le_refl _) v

/-- Of two classes below each other, each is the other one. -/
theorem isSubclass_antisymm (hfounded : h.Founded) (hab : h.isSubclass a b = true)
    (hba : h.isSubclass b a = true) : a = b :=
  (hfounded.climbs_ancestors a).eq_of_mem_of_mem (hfounded.climbs_ancestors b)
    (isSubclass_iff.mp hab) (isSubclass_iff.mp hba)

/-- What is below a class is below what that is below. -/
theorem isSubclass_trans (hfounded : h.Founded) {c : Value} (hab : h.isSubclass a b = true)
    (hbc : h.isSubclass b c = true) : h.isSubclass a c = true := by
  obtain ⟨rest, hfrom, hsuffix⟩ := (hfounded.climbs_ancestors a).suffix (isSubclass_iff.mp hab)
  obtain rfl : rest = h.ancestors b := hfrom.unique (hfounded.climbs_ancestors b)
  exact isSubclass_iff.mpr (hsuffix.subset (isSubclass_iff.mp hbc))

end Founded

/-- What is known keeps its superclass. -/
theorem Evolves.superclass? (hevolves : h.Evolves h') (hknown : h.Knows v) :
    h'.superclass? v = h.superclass? v := by
  unfold Heap.superclass?
  cases hdata : h.module? v with
  | some data =>
      obtain ⟨data', hdata', hsuper⟩ := hevolves.module? hdata
      rw [hdata', Option.bind_some, Option.bind_some, hsuper]
  | none =>
      cases hdata' : h'.module? v with
      | none => rfl
      | some data' =>
          obtain ⟨place, slot, hplace, -, -⟩ := exists_place (module?_eq_some_iff.mp hdata')
          obtain ⟨data, hbefore, -⟩ := hevolves.module?_before hdata' hplace (hknown place hplace)
          rw [hdata] at hbefore
          cases hbefore

/-- Where no handles are made up, the way up from what is known stays as it is. -/
theorem Climbs.of_evolves (hway : h.Climbs v way) (hclosed : h.Closed) (hevolves : h.Evolves h')
    (hknown : h.Knows v) : h'.Climbs v way := by
  induction hway with
  | top hend => exact .top ((hevolves.superclass? hknown).trans hend)
  | up hup hrest ih =>
      obtain ⟨data, hdata, hsuper⟩ := Option.bind_eq_some_iff.mp hup
      have hparent := hclosed.superclass hdata _ hsuper
      exact .up ((hevolves.superclass? hknown).trans hup) (ih hparent)

/-- **The classes above one that is known are the same ones later.** -/
theorem Founded.ancestors_eq (hfounded : h.Founded) (hclosed : h.Closed) (hdevelops : h.Develops h')
    (hknown : h.Knows v) : h'.ancestors v = h.ancestors v := by
  have hnow := (hfounded.climbs_ancestors v).of_evolves hclosed hdevelops.evolves hknown
  exact ((hdevelops.founded hfounded).climbs_ancestors v).unique hnow

end Heap

/-! ### A fresh interpreter -/

/-- The core classes are made after their superclasses. -/
theorem Machine.coreSlots_founded : Heap.Founded ⟨coreSlots⟩ := by
  intro place slot hslot data hdata parent hparent below hbelow
  obtain ⟨c, rfl, rfl⟩ := exists_core_of_getElem? hslot
  cases hdata
  obtain ⟨above, habove, rfl⟩ := Option.map_eq_some_iff.mp hparent
  obtain rfl : above.slot = below := Option.some.inj (above.slot?_value.symm.trans hbelow)
  exact CoreClass.superclass?_lt habove

namespace World

variable {σ : Type} [Handled σ] {w u : World σ}

/-- Superclasses come first in every world that honest programs lead to. -/
theorem Arises.founded (hw : w.Arises) : w.machine.heap.Founded :=
  hw.develops.founded (Machine.boot_develops.founded Machine.coreSlots_founded)

/-- **The way up from a module ends, and being a subclass is a partial order**, at every moment of what
honest programs do, one after another, out of a fresh interpreter.

The superclass of a class, if it is in the heap, was made before the class.  So from whatever the loop
over superclasses starts it comes to an end, with nothing noted twice; what it notes are the
`ancestors`, whatever number of rounds these are given beyond the number of slots, and methods, constants
and class variables are looked for among what it notes.  Every class is a subclass of itself, no two
classes are subclasses of each other, and a subclass of a subclass is a subclass. -/
theorem ways_up_end (harises : w.Arises) (hmoment : w.machine.heap.Develops u.machine.heap) :
    (∀ fuel role (program : Program σ role), program.Honest w.machine.heap.slots.size →
      w.machine.heap.Develops (Outcome.world (program.run (.ofFuel fuel) w)).machine.heap) ∧
    (∀ cls data parent place below, u.machine.heap.module? cls = some data →
      data.superclass = some parent → cls.slot? = some place → parent.slot? = some below →
        below < place) ∧
    (∀ v, ∃ way, u.machine.heap.Climbs v way ∧ way.Nodup ∧
      (∀ fuel, u.machine.heap.slots.size ≤ fuel → u.machine.heap.chain fuel v = way) ∧
      u.machine.heap.ancestors v = way ∧
      ∀ id,
        u.machine.findMethod v id = way.findSome? (fun cls => u.machine.methods.get? (cls, id)) ∧
        u.machine.heap.constant? v id =
          (way ++ [CoreClass.object.value]).findSome? (u.machine.heap.constantAt? · id) ∧
        u.machine.heap.classVar? v id = way.findSome? fun cls =>
          (u.machine.heap.module? cls).bind fun data => data.classVars.get? id) ∧
    (∀ a, u.machine.heap.isSubclass a a = true) ∧
    (∀ a b, u.machine.heap.isSubclass a b = true → u.machine.heap.isSubclass b a = true → a = b) ∧
    ∀ a b c, u.machine.heap.isSubclass a b = true → u.machine.heap.isSubclass b c = true →
      u.machine.heap.isSubclass a c = true := by
  have hfounded : u.machine.heap.Founded := hmoment.founded harises.founded
  refine ⟨fun fuel role program hprogram => (harises.sound.run fuel hprogram).develops, ?_, ?_,
    Heap.isSubclass_refl u.machine.heap, fun a b => hfounded.isSubclass_antisymm,
    fun a b c => hfounded.isSubclass_trans⟩
  · intro cls data parent place below hdata hsuper hplace hbelow
    have hup : u.machine.heap.superclass? cls = some parent := by
      unfold Heap.superclass?
      rw [hdata, Option.bind_some, hsuper]
    exact hfounded.superclass?_lt hup hplace hbelow
  · intro v
    have hway := hfounded.climbs_ancestors v
    exact ⟨u.machine.heap.ancestors v, hway, hway.nodup,
      fun fuel hfuel => (hfounded.climbs hfuel v).unique hway, rfl, fun id => ⟨rfl, rfl, rfl⟩⟩

/-- A program that calls `Class.new(5)`. -/
def classMaking : Program Unit .main :=
  .ask (.call CoreClass.classClass.value "new" [Value.ofFixnum 5]) fun _ => .done ()

/-- The world in which it was run in a fresh interpreter. -/
def withClass : World Unit :=
  Outcome.world (classMaking.run (.ofFuel 3) { memory := () })

/-- Right after `Class.new(5)` in a fresh interpreter the way up from the new class is that class and 5.
The class is below 5, and so 5 is not below the class. -/
theorem ways_up_end_number :
    withClass.Arises ∧ withClass.history.errors = [] ∧
      withClass.machine.heap.ancestors Machine.firstMade = [Machine.firstMade, Value.ofFixnum 5] ∧
      [Machine.firstMade, Value.ofFixnum 5].Nodup ∧
      withClass.machine.heap.isSubclass Machine.firstMade (Value.ofFixnum 5) = true ∧
      withClass.machine.heap.isSubclass (Value.ofFixnum 5) Machine.firstMade = false := by
  have hran : withClass.history.errors = [] ∧
      withClass.machine.heap.superclass? Machine.firstMade = some (Value.ofFixnum 5) ∧
      withClass.machine.heap.superclass? (Value.ofFixnum 5) = none := by
    decide +kernel
  obtain ⟨hnone, hsuper, htop⟩ := hran
  have hclassMaking : classMaking.Honest ({ memory := () } : World Unit).machine.heap.slots.size :=
    ⟨within_cons (Machine.boot_coreStanding.within .classClass)
      (within_cons (within_ofFixnum 5 _) (within_of_eq_nil rfl)), fun _ _ _ _ => trivial⟩
  have harises : withClass.Arises := .run arises_fresh 3 hclassMaking
  obtain ⟨-, -, hways, -, hanti, -⟩ := ways_up_end harises (u := withClass) (.refl _)
  have hclimbs : withClass.machine.heap.Climbs Machine.firstMade
      [Machine.firstMade, Value.ofFixnum 5] := .up hsuper (.top htop)
  obtain ⟨way, hway, hnodup, -, hancestors, -⟩ := hways Machine.firstMade
  obtain rfl := hclimbs.unique hway
  have hbelow : withClass.machine.heap.isSubclass Machine.firstMade (Value.ofFixnum 5) = true := by
    rw [Heap.isSubclass_iff, hancestors]
    exact List.mem_cons_of_mem _ List.mem_cons_self
  refine ⟨harises, hnone, hancestors, hnodup, hbelow, ?_⟩
  rw [Bool.eq_false_iff]
  intro habove
  have hsame : Machine.firstMade = Value.ofFixnum 5 := hanti _ _ hbelow habove
  exact (List.nodup_cons.mp hnodup).1 (hsame ▸ List.mem_cons_self)

end World

end EmbeddedRuby
