import EmbeddedRuby.Proofs.OwnMethods
import EmbeddedRuby.Proofs.Sequences

/-!
# The tree of classes

Methods, constants and the contents of new objects are found by going up from a class, so what is
found depends on where that way leads.  If every class stands (`Heap.AllStand`) it goes on from
class to class and ends at `Object` (`Heap.AllStand.getLast?_ancestors`), and every object of a
class answers to the methods of `Object` (`Machine.findMethod_of_object`).

A run is taken as a sequence of **moves** (`World.Move`), in which a class that is new has a
superclass, and one that has a name stands.  A script that puts a class below something looks
whether that is a class; `Class.new` does not look.  So all classes stand as long as what
`Class.new` is given is a class, and no longer.

The main statement is `World.classes_stand_iff`.
-/

namespace EmbeddedRuby

open Eval

namespace Heap

variable {h : Heap} {cls parent : Value}

/-! ### The way up -/

/-- Going up a class comes to places that were filled earlier and earlier, so there are rounds
enough to come to the end. -/
theorem AllStand.getLast?_chain (hall : h.AllStand) (hcore : h.CoreStanding) {place fuel : Nat}
    (hclass : h.IsClass cls) (hplace : cls.slot? = some place) (hfuel : place < fuel) :
    (h.chain fuel cls).getLast? = some CoreClass.object.value := by
  induction fuel generalizing cls place with
  | zero => omega
  | succ fuel ih =>
      by_cases hroot : cls = CoreClass.object.value
      · subst hroot
        unfold chain
        rw [hcore.parent .object]
        rfl
      · obtain ⟨data, parent, place', below, hdata, hsuper, hparent, hplace', hbelow, hlt⟩ :=
          hall cls hclass hroot
        obtain rfl : place' = place := Option.some.inj (hplace'.symm.trans hplace)
        have hup : (h.module? cls).bind ModuleData.superclass = some parent := by
          rw [hdata, Option.bind_some, hsuper]
        have hrest := ih hparent hbelow (by omega)
        unfold chain
        rw [hup]
        rw [List.getLast?_cons, hrest]
        rfl

/-- **Where all classes stand, the way up from each of them ends at `Object`.** -/
theorem AllStand.getLast?_ancestors (hall : h.AllStand) (hcore : h.CoreStanding)
    (hclass : h.IsClass cls) : (h.ancestors cls).getLast? = some CoreClass.object.value := by
  obtain ⟨place, hplace, hlt⟩ := hclass.exists_place
  exact hall.getLast?_chain hcore hclass hplace hlt

/-- The way up from a class that is below no class or module ends there. -/
theorem ancestors_of_superclass {data : ModuleData} (hdata : h.module? cls = some data)
    (hsuper : data.superclass = some parent) (hparent : h.module? parent = none) :
    h.ancestors cls = [cls, parent] := by
  obtain ⟨place, slot, -, hget, -⟩ := exists_place (module?_eq_some_iff.mp hdata)
  have hlt := (Array.getElem?_eq_some_iff.mp hget).1
  obtain ⟨fuel, hfuel⟩ : ∃ fuel, h.slots.size = fuel + 1 := ⟨h.slots.size - 1, by omega⟩
  have hend : h.chain fuel parent = [parent] := by
    cases fuel with
    | zero => rfl
    | succ fuel =>
        unfold chain
        rw [hparent]
        rfl
  unfold ancestors
  rw [hfuel]
  unfold chain
  rw [hdata, Option.bind_some, hsuper]
  exact congrArg (List.cons cls) hend

/-- A new class below something stands if that is a class. -/
theorem allStand_alloc_iff (hroom : h.Addressable) (hcore : h.CoreStanding) (kind : Value)
    {data : ModuleData} (hclass : data.isClass = true) (hsuper : data.superclass = some parent) :
    (h.alloc kind (.ofModule data)).2.AllStand ↔ h.AllStand ∧ h.IsClass parent := by
  have hevolves : h.Evolves (h.alloc kind (.ofModule data)).2 := .alloc h kind _
  have hplace : (h.alloc kind (.ofModule data)).1.slot? = some h.slots.size :=
    Value.slot?_ofSlot hroom
  have hnew : (h.alloc kind (.ofModule data)).2.module? (h.alloc kind (.ofModule data)).1 =
      some data := module?_eq_some_iff.mpr (body?_alloc hroom kind _)
  constructor
  · intro hall
    refine ⟨hall.before hevolves, ?_⟩
    have hother : (h.alloc kind (.ofModule data)).1 ≠ CoreClass.object.value := by
      intro hsame
      obtain ⟨object, hobject, -⟩ := Option.map_eq_some_iff.mp (hcore .object)
      obtain ⟨place, slot, hroot, hget, -⟩ := exists_place (module?_eq_some_iff.mp hobject)
      have hlt := (Array.getElem?_eq_some_iff.mp hget).1
      rw [← hsame, hplace, Option.some.injEq] at hroot
      omega
    obtain ⟨found, parent', place, below, hfound, hparent, hisClass, hplace', hbelow, hlt⟩ :=
      hall _ ⟨data, hnew, hclass⟩ hother
    obtain rfl : found = data := Option.some.inj (hfound.symm.trans hnew)
    obtain rfl : parent' = parent := Option.some.inj (hparent.symm.trans hsuper)
    obtain rfl : place = h.slots.size := Option.some.inj (hplace'.symm.trans hplace)
    exact hisClass.before hevolves hbelow hlt
  · rintro ⟨hall, hparent⟩ cls hisClass hroot
    obtain ⟨found, hfound, hkind⟩ := hisClass
    cases hbefore : h.module? cls with
    | some old =>
        obtain ⟨later, hlater, hsame⟩ := hevolves.sameModule hbefore
        obtain rfl : later = found := Option.some.inj (hlater.symm.trans hfound)
        have hold : h.IsClass cls := ⟨old, hbefore, hsame.isClass.symm.trans hkind⟩
        exact (hall cls hold hroot).of_evolves hevolves
    | none =>
        obtain ⟨hcls, hbody⟩ := module?_alloc_new hbefore hfound
        cases hbody
        obtain ⟨below, hbelow, hlt⟩ := hparent.exists_place
        exact ⟨data, parent, h.slots.size, below, hfound, hsuper, hparent.of_evolves hevolves, hcls,
          hbelow, hlt⟩

end Heap

/-- Objects of a class answer to the methods of `Object`, by these or by others of the same name. -/
theorem Machine.findMethod_of_object {m : Machine} {cls : Value} {id : SymbolId} {method : Method}
    (hend : (m.heap.ancestors cls).getLast? = some CoreClass.object.value)
    (hmethod : m.methods.get? (CoreClass.object.value, id) = some method) :
    (m.findMethod cls id).isSome = true := by
  have hobject : CoreClass.object.value ∈ m.heap.ancestors cls := List.mem_of_getLast? hend
  unfold findMethod
  rw [List.findSome?_isSome_iff]
  exact ⟨_, hobject, by rw [hmethod, Option.isSome_some]⟩

/-! ### Moves -/

theorem Machine.fillBacktrace_newStand (m : Machine) (exception : Value) :
    m.heap.NewStand (m.fillBacktrace exception).heap := by
  unfold fillBacktrace
  split
  · rename_i message backtrace hbody
    split
    · have hclasses := (Machine.Works.backtrace m).classes
      have hevolves : m.backtrace.2.heap.Evolves
          (m.backtrace.2.heap.setBody exception (.exception message m.backtrace.1)) := by
        refine .setBody fun old hold => ?_
        rw [backtrace_body? hbody] at hold
        cases hold
        exact .exception message backtrace _
      exact hclasses.trans (.of_size hevolves (Heap.size_setBody _ _ _)) hevolves
    · exact .refl m.heap
  · exact .refl m.heap

variable {σ : Type}

namespace World

variable {w w' v : World σ}

/-- A change in a run, in which a class that is new has a superclass, and stands if it has a name.
-/
structure Move (w w' : World σ) : Prop where
  change : w.Change AnyProbe w'
  classes : w.machine.heap.NewStand w'.machine.heap

/-- Any number of moves. -/
abbrev Moves : World σ → World σ → Prop :=
  Relation.ReflTransGen Move

theorem Moves.evolves (h : w.Moves w') : w.machine.heap.Evolves w'.machine.heap := by
  induction h with
  | refl => exact .refl _
  | tail _ last ih => exact ih.trans last.change.evolves

/-- **Each move keeps it up that classes with names stand**, and so does a run. -/
theorem Moves.namedStand (h : w.Moves w') (hw : w.machine.heap.NamedStand) :
    w'.machine.heap.NamedStand := by
  induction h with
  | refl => exact hw
  | tail _ last ih => exact ih.of_evolves last.change.evolves last.classes

theorem moves_deeds {m : Machine} (h : w.machine.Deeds m) : w.Moves { w with machine := m } :=
  h.deeds.lift (fun m => { w with machine := m }) fun _ _ deed =>
    ⟨.step (.machine _ deed.step), deed.classes⟩

theorem sequenced_move : Sequenced (Move : World σ → World σ → Prop) where
  elsewhere h hheap _ := ⟨h, hheap ▸ .refl _⟩
  works _ _ h := moves_deeds h.toDeeds
  raising w fault := ⟨.raising w fault, (Machine.Works.newException w.machine fault).classes⟩
  raisingObject w exception hexception :=
    ⟨.raisingObject hexception, w.machine.fillBacktrace_newStand exception⟩
  addProc {w _} hup hbody := ⟨.addProc hup hbody, .alloc_other w.machine.heap _ nofun⟩

end World

/-- **Whatever a program of the host's does comes to moves.** -/
theorem Program.moves_run (fuel : Nat) {role : Role} (program : Program σ role) (w : World σ) :
    w.Moves (Outcome.world (program.run (.ofFuel fuel) w)) :=
  World.sequenced_move.run (World.sequenced_move.tellDefinitions fun _ _ => World.moves_deeds)
    fuel program w

/-! ### Classes without names -/

namespace World

variable {w v : World σ}

/-- `Class.new` makes a class without a name below what it is given, whatever that is. -/
theorem new_class_apply (r : Reentry σ) {call : Call σ} {parent : Value}
    (hkind : Methods.newKind? v.machine.heap call.receiver = some .classClass)
    (hargs : call.args.length ≤ 1)
    (hparent : call.args.head?.getD CoreClass.object.value = parent) :
    Builtin.classNew.run r call v =
      .ok (v.machine.newModule none (some parent)).1
        { v with machine := (v.machine.newModule none (some parent)).2 } := by
  subst hparent
  unfold Builtin.run Methods.new
  dsimp only
  rw [machine_bind_apply, hkind]
  dsimp only
  rw [checkArity_bind_apply (Nat.zero_le _) hargs]
  rfl

/-- **All classes stand as long as `Class.new` is given classes.**  Whatever programs the host runs,
and whatever scripts they load, every class but `Object` has a superclass, and one that was opened
by a script stands; so what is left are the classes without names.  Where all of these stand too,
the way up from every class ends at `Object`, and objects of a class answer to the methods of
`Object`.  `Class.new` keeps this up if it is given a class or nothing; it takes whatever else it is
given all the same, and then the class that it makes is not below `Object`. -/
theorem classes_stand_iff (hboot : w.machine.heap = Machine.boot.heap) (hmoves : w.Moves v) :
    (∀ fuel role (program : Program σ role),
      v.Moves (Outcome.world (program.run (.ofFuel fuel) v))) ∧
    w.machine.heap.AllStand ∧ v.machine.heap.NamedStand ∧
    (v.machine.heap.AllStand ↔ ∀ cls data, v.machine.heap.module? cls = some data →
      data.isClass = true → data.name = none → cls ≠ CoreClass.object.value →
        v.machine.heap.Stands cls) ∧
    (v.machine.heap.AllStand →
      (∀ cls, v.machine.heap.IsClass cls →
        (v.machine.heap.ancestors cls).getLast? = some CoreClass.object.value) ∧
      ∀ object id method, v.machine.heap.IsClass (v.machine.heap.classOf object) →
        v.machine.methods.get? (CoreClass.object.value, id) = some method →
          v.machine.respondsTo object id = true) ∧
    ∀ (r : Reentry σ) (call : Call σ) parent, v.machine.heap.Addressable →
      Methods.newKind? v.machine.heap call.receiver = some .classClass → call.args.length ≤ 1 →
      call.args.head?.getD CoreClass.object.value = parent →
        let made := v.machine.newModule none (some parent)
        let v' := { v with machine := made.2 }
        Builtin.classNew.run r call v = .ok made.1 v' ∧ v.Moves v' ∧
        (v'.machine.heap.AllStand ↔ v.machine.heap.AllStand ∧ v.machine.heap.IsClass parent) ∧
        (v.machine.heap.module? parent = none → parent ≠ made.1 →
          v'.machine.heap.ancestors made.1 = [made.1, parent]) := by
  have hall : w.machine.heap.AllStand := by
    rw [hboot]
    exact Machine.boot_allStand
  have hcoreBefore : w.machine.heap.CoreStanding := by
    rw [hboot]
    exact Machine.boot_coreStanding
  have hcore : v.machine.heap.CoreStanding := hcoreBefore.of_evolves hmoves.evolves
  have hnamed : v.machine.heap.NamedStand := hmoves.namedStand hall.namedStand
  refine ⟨fun fuel role program => program.moves_run fuel v, hall, hnamed, hnamed.allStand_iff,
    ?_, ?_⟩
  · intro hstand
    refine ⟨fun cls hclass => hstand.getLast?_ancestors hcore hclass, ?_⟩
    intro object id method hclass hmethod
    exact Machine.findMethod_of_object (hstand.getLast?_ancestors hcore hclass) hmethod
  · intro r call parent hroom hkind hargs hparent made v'
    have hwork : v.machine.Works made.2 := .anonymous v.machine (some parent)
    refine ⟨new_class_apply r hkind hargs hparent, moves_deeds hwork.toDeeds,
      Heap.allStand_alloc_iff hroom hcore _ rfl rfl, ?_⟩
    intro hnone hother
    have hmade : made.2.heap.module? made.1 = some _ :=
      Heap.module?_eq_some_iff.mpr (Heap.body?_alloc hroom _ _)
    have hstill : made.2.heap.module? parent = none := by
      cases hparentData : made.2.heap.module? parent with
      | none => rfl
      | some data =>
          have hplace := (Heap.module?_alloc_new hnone hparentData).1
          exact absurd (Value.eq_ofSlot hplace) hother
    exact Heap.ancestors_of_superclass hmade rfl hstill

/-- In a fresh interpreter all classes stand, and after `Class.new(5)` there is one that does not;
it is below 5, and so below no class. -/
theorem classes_stand_iff_number :
    let w : World Unit := { memory := () }
    let made := w.machine.newModule none (some (Value.ofFixnum 5))
    let w' : World Unit := { w with machine := made.2 }
    let call : Call Unit :=
      { receiver := CoreClass.classClass.value, method := (w.machine.intern "new").1
        args := [Value.ofFixnum 5] }
    w.machine.heap.AllStand ∧ Builtin.classNew.run (.ofFuel 0) call w = .ok made.1 w' ∧
      w.Moves w' ∧ ¬ w'.machine.heap.AllStand ∧
      w'.machine.heap.ancestors made.1 = [made.1, Value.ofFixnum 5] := by
  intro w made w' call
  obtain ⟨-, hall, -, -, -, hnew⟩ := classes_stand_iff (w := w) (v := w) rfl .refl
  have hsize : w.machine.heap.slots.size = CoreClass.all.length := Machine.boot_size
  have hroom : w.machine.heap.Addressable := by
    unfold Heap.Addressable
    rw [hsize]
    decide
  have hkind : Methods.newKind? w.machine.heap CoreClass.classClass.value = some .classClass := by
    unfold Methods.newKind? Heap.ancestors
    rw [hsize, Machine.boot_coreStanding.chain]
    decide +kernel
  have hnone : w.machine.heap.module? (Value.ofFixnum 5) = none := by
    have hslot : (Value.ofFixnum 5).slot? = none := by decide
    unfold Heap.module? Heap.body? Heap.slot?
    rw [hslot]
    rfl
  have hother : Value.ofFixnum 5 ≠ made.1 := by
    have hmade : made.1 = Value.ofSlot CoreClass.all.length := congrArg Value.ofSlot hsize
    rw [hmade]
    decide
  obtain ⟨hrun, hmove, hstand, hup⟩ :=
    hnew (.ofFuel 0) call (Value.ofFixnum 5) hroom hkind (by decide) rfl
  refine ⟨hall, hrun, hmove, ?_, hup hnone hother⟩
  intro hstands
  obtain ⟨data, hdata, -⟩ := (hstand.mp hstands).2
  rw [hnone] at hdata
  cases hdata

end World

end EmbeddedRuby
