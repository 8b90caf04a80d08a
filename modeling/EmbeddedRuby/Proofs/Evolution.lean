import EmbeddedRuby.Proofs.Stacks

/-!
# What can become of an object

No object is ever taken away, and an object keeps its class and the kind of its contents
(`Heap.Evolves`).  What an object holds can change only where a method changes it in place: the items
of an array, the pairs of a hash, the constants of a module, the backtrace of an exception
(`Body.Becomes`).  Numbers, strings and procs stay what they are; so the word of a proc leads to the
same code of the host's at every later moment (`Heap.Evolves.body?_proc`).  A class keeps its
superclass (`Heap.Evolves.module?`).
-/

namespace EmbeddedRuby

variable {σ : Type} {P : Probe → Prop}

/-- What the contents of an object can change to. -/
inductive Body.Becomes : Body → Body → Prop
  | same (b : Body) : Becomes b b
  | array (items items' : List Value) : Becomes (.array items) (.array items')
  | hash (pairs pairs' : List (Value × Value)) : Becomes (.hash pairs) (.hash pairs')
  | module {data data' : ModuleData} (hname : data'.name = data.name)
      (hclass : data'.isClass = data.isClass) (hsuper : data'.superclass = data.superclass) :
      Becomes (.ofModule data) (.ofModule data')
  | exception (message backtrace backtrace' : Value) :
      Becomes (.exception message backtrace) (.exception message backtrace')

/-- What contents can become in two steps they can become in one. -/
theorem Body.Becomes.trans {a b c : Body} (h₁ : a.Becomes b) (h₂ : b.Becomes c) :
    a.Becomes c := by
  cases h₁ with
  | same => exact h₂
  | array items items' =>
      cases h₂ with
      | same => exact .array items items'
      | array _ items'' => exact .array items items''
  | hash pairs pairs' =>
      cases h₂ with
      | same => exact .hash pairs pairs'
      | hash _ pairs'' => exact .hash pairs pairs''
  | module hname hclass hsuper =>
      cases h₂ with
      | same => exact .module hname hclass hsuper
      | module hname' hclass' hsuper' =>
          exact .module (hname'.trans hname) (hclass'.trans hclass) (hsuper'.trans hsuper)
  | exception message backtrace backtrace' =>
      cases h₂ with
      | same => exact .exception message backtrace backtrace'
      | exception _ _ backtrace'' => exact .exception message backtrace backtrace''

namespace Heap

variable {h h₁ h₂ : Heap} {v : Value}

/-- A module is an object whose contents are those of a module. -/
theorem module?_eq_some_iff {data : ModuleData} :
    h.module? v = some data ↔ h.body? v = some (.ofModule data) := by
  unfold module?
  split <;> simp_all

/-- An object with items is an array. -/
theorem body?_of_items? {items : List Value} (hitems : h.items? v = some items) :
    h.body? v = some (.array items) := by
  unfold items? at hitems
  split at hitems <;> simp_all

/-- An object with pairs is a hash. -/
theorem body?_of_pairs? {pairs : List (Value × Value)} (hpairs : h.pairs? v = some pairs) :
    h.body? v = some (.hash pairs) := by
  unfold pairs? at hpairs
  split at hpairs <;> simp_all

/-- An object with bytes is a string. -/
theorem body?_of_bytes? {bytes : List UInt8} (hbytes : h.bytes? v = some bytes) :
    h.body? v = some (.string bytes) := by
  unfold bytes? at hbytes
  split at hbytes <;> simp_all

/-- The items of an array are its contents. -/
theorem items?_of_body? {items : List Value} (hbody : h.body? v = some (.array items)) :
    h.items? v = some items := by
  unfold items?
  rw [hbody]

/-- The pairs of a hash are its contents. -/
theorem pairs?_of_body? {pairs : List (Value × Value)} (hbody : h.body? v = some (.hash pairs)) :
    h.pairs? v = some pairs := by
  unfold pairs?
  rw [hbody]

/-- An object is there still when another one was made. -/
theorem slot?_alloc_of_some {slot : Slot} (hslot : h.slot? v = some slot) (cls : Value) (b : Body) :
    (h.alloc cls b).2.slot? v = some slot := by
  simp only [slot?, Option.bind_eq_some_iff] at hslot ⊢
  obtain ⟨index, hindex, hslot⟩ := hslot
  have hlt := (Array.getElem?_eq_some_iff.mp hslot).1
  refine ⟨index, hindex, ?_⟩
  rw [← hslot]
  exact (Array.getElem?_push_lt hlt).trans (Array.getElem?_eq_getElem hlt).symm

/-- Every object is there still, as it was. -/
def KeepsSlots (h h' : Heap) : Prop :=
  ∀ v slot, h.slot? v = some slot → h'.slot? v = some slot

/-- A heap keeps its own objects. -/
theorem KeepsSlots.refl (h : Heap) : h.KeepsSlots h :=
  fun _ _ hslot => hslot

/-- What is kept and kept again is kept. -/
theorem KeepsSlots.trans (h₁₂ : h.KeepsSlots h₁) (h₂₃ : h₁.KeepsSlots h₂) : h.KeepsSlots h₂ :=
  fun v slot hslot => h₂₃ v slot (h₁₂ v slot hslot)

/-- A new object leaves the others as they were. -/
theorem KeepsSlots.alloc (h : Heap) (cls : Value) (b : Body) : h.KeepsSlots (h.alloc cls b).2 :=
  fun _ _ hslot => slot?_alloc_of_some hslot cls b

/-- An object that is kept has the contents that it had. -/
theorem KeepsSlots.body? {b : Body} (hkept : h.KeepsSlots h₁) (hb : h.body? v = some b) :
    h₁.body? v = some b := by
  unfold Heap.body? at hb ⊢
  obtain ⟨slot, hslot, hbody⟩ := Option.map_eq_some_iff.mp hb
  rw [hkept v slot hslot, Option.map_some, hbody]

/-- An object has the contents that it had when another one was made. -/
theorem body?_alloc_of_some {b : Body} (hb : h.body? v = some b) (cls : Value) (new : Body) :
    (h.alloc cls new).2.body? v = some b :=
  (KeepsSlots.alloc h cls new).body? hb

/-- Every object is there still, of the same class, with contents that its contents can have become.
-/
def Evolves (h h' : Heap) : Prop :=
  ∀ (index : Nat) (slot : Slot), h.slots[index]? = some slot →
    ∃ slot' : Slot, h'.slots[index]? = some slot' ∧ slot'.cls = slot.cls ∧ slot.body.Becomes slot'.body

/-- A heap evolves into itself. -/
theorem Evolves.refl (h : Heap) : h.Evolves h :=
  fun _ slot hslot => ⟨slot, hslot, rfl, .same slot.body⟩

/-- Heaps evolve step by step, and an object's class and kind last through all the steps. -/
theorem Evolves.trans (h₁₂ : h.Evolves h₁) (h₂₃ : h₁.Evolves h₂) : h.Evolves h₂ := by
  intro index slot hslot
  obtain ⟨slot₁, hslot₁, hcls₁, hbody₁⟩ := h₁₂ index slot hslot
  obtain ⟨slot₂, hslot₂, hcls₂, hbody₂⟩ := h₂₃ index slot₁ hslot₁
  exact ⟨slot₂, hslot₂, hcls₂.trans hcls₁, hbody₁.trans hbody₂⟩

/-- A new object takes none away. -/
theorem Evolves.alloc (h : Heap) (cls : Value) (b : Body) : h.Evolves (h.alloc cls b).2 := by
  intro index slot hslot
  have hlt := (Array.getElem?_eq_some_iff.mp hslot).1
  have hkept : (h.slots.push ⟨cls, b⟩)[index]? = some slot := by
    rw [Array.getElem?_push_lt hlt, ← hslot]
    exact (Array.getElem?_eq_getElem hlt).symm
  exact ⟨slot, hkept, rfl, .same slot.body⟩

/-- Other contents for an object, which its contents can become. -/
theorem Evolves.setBody {new : Body} (hnew : ∀ old, h.body? v = some old → old.Becomes new) :
    h.Evolves (h.setBody v new) := by
  unfold Heap.setBody
  cases hv : v.slot? with
  | none => exact .refl h
  | some place =>
      intro index slot hslot
      by_cases hsame : place = index
      · subst hsame
        have hbody : h.body? v = some slot.body := by
          simp [body?, slot?, hv, hslot]
        refine ⟨{ slot with body := new }, ?_, rfl, hnew _ hbody⟩
        simp [Array.getElem?_modify, hslot]
      · refine ⟨slot, ?_, rfl, .same slot.body⟩
        simp [Array.getElem?_modify, hsame, hslot]

/-- Where an object was made, there is what was there before, or in the next place the object. -/
theorem getElem?_alloc_cases {cls : Value} {b : Body} {place : Nat} {slot : Slot}
    (hslot : (h.alloc cls b).2.slots[place]? = some slot) :
    h.slots[place]? = some slot ∨ place = h.slots.size ∧ slot = ⟨cls, b⟩ := by
  have hpush : (h.slots.push ⟨cls, b⟩)[place]? = some slot := hslot
  rw [Array.getElem?_push] at hpush
  split at hpush
  · rename_i hnew
    exact .inr ⟨hnew, (Option.some.inj hpush).symm⟩
  · exact .inl hpush

/-- With other contents for one object, the others are in their places as they were. -/
theorem getElem?_setBody_cases {b : Body} {place : Nat} {slot : Slot}
    (hslot : (h.setBody v b).slots[place]? = some slot) :
    ∃ old, h.slots[place]? = some old ∧ slot.cls = old.cls ∧
      (slot.body = old.body ∨ v.slot? = some place ∧ slot.body = b) := by
  unfold Heap.setBody at hslot
  split at hslot
  · rename_i changed hchanged
    rw [Array.getElem?_modify] at hslot
    split at hslot
    · rename_i hsame
      obtain ⟨old, hold, rfl⟩ := Option.map_eq_some_iff.mp hslot
      exact ⟨old, hold, rfl, .inr ⟨hsame ▸ hchanged, rfl⟩⟩
    · exact ⟨slot, hslot, rfl, .inl rfl⟩
  · exact ⟨slot, hslot, rfl, .inl rfl⟩

/-- A module may get other constants and class variables, but keeps its name, its kind and its
superclass. -/
theorem Evolves.changeModule (h : Heap) (v : Value) {change : ModuleData → ModuleData}
    (hchange : ∀ data, (change data).name = data.name ∧
      (change data).isClass = data.isClass ∧ (change data).superclass = data.superclass) :
    h.Evolves (h.changeModule v change) := by
  unfold Heap.changeModule
  cases hdata : h.module? v with
  | none => exact .refl h
  | some data =>
      apply Evolves.setBody
      intro old hold
      obtain rfl : old = .ofModule data :=
        Option.some.inj (hold.symm.trans (module?_eq_some_iff.mp hdata))
      obtain ⟨hname, hclass, hsuper⟩ := hchange data
      exact .module hname hclass hsuper

/-- An Integer is a new object at most. -/
theorem Evolves.ofInteger (h : Heap) (n : Int) : h.Evolves (h.ofInteger n).2 := by
  unfold Heap.ofInteger
  split
  · exact .refl h
  · exact .alloc h _ _

/-! ### What holds of each object -/

/-- `P` holds of each object and its place. -/
def Each (h : Heap) (P : Nat → Slot → Prop) : Prop :=
  ∀ place slot, h.slots[place]? = some slot → P place slot

section Each

variable {P : Nat → Slot → Prop}

/-- What holds of each object and of a new one holds of each object with the new one. -/
theorem Each.alloc {cls : Value} {b : Body} (heach : h.Each P) (hnew : P h.slots.size ⟨cls, b⟩) :
    (h.alloc cls b).2.Each P := by
  intro place slot hslot
  rcases getElem?_alloc_cases hslot with hold | ⟨rfl, rfl⟩
  · exact heach place slot hold
  · exact hnew

/-- What outlasts the changes that there are to contents goes on holding where no place is added. -/
theorem Each.of_size (heach : h.Each P)
    (hlasts : ∀ {place cls b b'}, P place ⟨cls, b⟩ → b.Becomes b' → P place ⟨cls, b'⟩)
    (hevolves : h.Evolves h₁) (hsize : h₁.slots.size = h.slots.size) : h₁.Each P := by
  intro place slot' hslot'
  have hlt : place < h.slots.size := hsize ▸ (Array.getElem?_eq_some_iff.mp hslot').1
  obtain ⟨slot, hslot⟩ : ∃ slot, h.slots[place]? = some slot := ⟨_, Array.getElem?_eq_getElem hlt⟩
  obtain ⟨found, hfound, hcls, hbecomes⟩ := hevolves place slot hslot
  obtain rfl : found = slot' := Option.some.inj (hfound.symm.trans hslot')
  have hnow : P place ⟨slot.cls, found.body⟩ := hlasts (heach place slot hslot) hbecomes
  rw [← hcls] at hnow
  exact hnow

end Each

/-- An object keeps its class, and its contents have become what they are after it. -/
theorem Evolves.slot? (hevolves : h.Evolves h₁) {slot : Slot} (hslot : h.slot? v = some slot) :
    ∃ slot', h₁.slot? v = some slot' ∧ slot'.cls = slot.cls ∧ slot.body.Becomes slot'.body := by
  obtain ⟨index, hindex, hslot⟩ := Option.bind_eq_some_iff.mp hslot
  obtain ⟨slot', hslot', hcls, hbecomes⟩ := hevolves index slot hslot
  exact ⟨slot', Option.bind_eq_some_iff.mpr ⟨index, hindex, hslot'⟩, hcls, hbecomes⟩

/-- The contents of an object have become what they are later. -/
theorem Evolves.body? (hevolves : h.Evolves h₁) {b : Body} (hb : h.body? v = some b) :
    ∃ b', h₁.body? v = some b' ∧ b.Becomes b' := by
  obtain ⟨slot, hslot, rfl⟩ := Option.map_eq_some_iff.mp hb
  obtain ⟨slot', hslot', -, hbecomes⟩ := hevolves.slot? hslot
  exact ⟨slot'.body, Option.map_eq_some_iff.mpr ⟨slot', hslot', rfl⟩, hbecomes⟩

/-- A proc stays the proc that it is. -/
theorem Evolves.body?_proc (hevolves : h.Evolves h₁) {code : Nat}
    (hb : h.body? v = some (.proc code)) : h₁.body? v = some (.proc code) := by
  obtain ⟨b, hb₁, hbecomes⟩ := hevolves.body? hb
  cases hbecomes
  exact hb₁

/-- A class or module is one still, with the superclass that it had. -/
theorem Evolves.module? (hevolves : h.Evolves h₁) {data : ModuleData}
    (hdata : h.module? v = some data) :
    ∃ data', h₁.module? v = some data' ∧ data'.superclass = data.superclass := by
  obtain ⟨b, hb, hbecomes⟩ := hevolves.body? (module?_eq_some_iff.mp hdata)
  cases hbecomes with
  | same => exact ⟨data, module?_eq_some_iff.mpr hb, rfl⟩
  | module hname hclass hsuper => exact ⟨_, module?_eq_some_iff.mpr hb, hsuper⟩

end Heap

/-! ### Steps and runs -/

namespace Machine

variable {m m' : Machine}

/-- Each step of the interpreter lets the heap evolve, one case for each. -/
theorem Step.evolves (h : m.Step m') : m.heap.Evolves m'.heap := by
  cases h with
  | string | float | array | module | «instance» => exact .alloc m.heap _ _
  | integer n => exact .ofInteger m.heap n
  | intern | countIntern | newTarget | print => exact .refl m.heap
  | setConstant | setClassVar => exact .changeModule m.heap _ fun _ => ⟨rfl, rfl, rfl⟩
  | storeInHash hash key value =>
      unfold Machine.storeInHash
      split
      · rename_i pairs hpairs
        refine .setBody fun old hold => ?_
        rw [Heap.body?_of_pairs? hpairs] at hold
        cases hold
        exact .hash _ _
      · exact .refl m.heap
  | pushItems array items =>
      unfold Methods.pushItems
      split
      · rename_i found hitems
        refine .setBody fun old hold => ?_
        rw [Heap.body?_of_items? hitems] at hold
        cases hold
        exact .array _ _
      · exact .refl m.heap

/-- Any number of steps let the heap evolve. -/
theorem Steps.evolves (h : m.Steps m') : m.heap.Evolves m'.heap := by
  induction h with
  | refl => exact .refl m.heap
  | tail before last ih => exact ih.trans last.evolves

/-- Making an exception lets the heap evolve, as it consists of steps. -/
theorem newException_evolves (m : Machine) (fault : Fault) :
    m.heap.Evolves (m.newException fault).2.heap :=
  Steps.evolves (m.newException_steps fault)

/-- New texts change no object that was there. -/
theorem newTexts_keepsSlots (m : Machine) (texts : List String) :
    m.heap.KeepsSlots (m.newTexts texts).2.heap := by
  induction texts generalizing m with
  | nil => exact .refl m.heap
  | cons text rest ih => exact (Heap.KeepsSlots.alloc m.heap _ _).trans (ih (m.newText text).2)

/-- A backtrace changes no object that was there. -/
theorem backtrace_keepsSlots (m : Machine) : m.heap.KeepsSlots m.backtrace.2.heap :=
  (m.newTexts_keepsSlots (m.frames.map Frame.render)).trans (.alloc _ _ _)

/-- A new exception changes no object that was there. -/
theorem newException_keepsSlots (m : Machine) (fault : Fault) :
    m.heap.KeepsSlots (m.newException fault).2.heap := by
  let m₁ := (m.newText fault.message).2
  have hmessage : m.heap.KeepsSlots m₁.heap := .alloc m.heap _ _
  exact (hmessage.trans m₁.backtrace_keepsSlots).trans (.alloc _ _ _)

/-- An object has the contents that it had when a backtrace was made. -/
theorem backtrace_body? {v : Value} {b : Body}
    (hb : m.heap.body? v = some b) : m.backtrace.2.heap.body? v = some b :=
  m.backtrace_keepsSlots.body? hb

/-- An exception that gets its backtrace stays an exception with its message. -/
theorem fillBacktrace_evolves (m : Machine) (exception : Value) :
    m.heap.Evolves (m.fillBacktrace exception).heap := by
  unfold fillBacktrace
  split
  · rename_i message backtrace hbody
    split
    · refine (Steps.evolves m.backtrace_steps).trans (.setBody fun old hold => ?_)
      rw [backtrace_body? hbody] at hold
      cases hold
      exact .exception message backtrace _
    · exact .refl m.heap
  · exact .refl m.heap

/-- A command line does not concern the heap. -/
theorem options_heap (m : Machine) (argv : List String) :
    (m.options argv).2.heap = m.heap := by
  unfold options
  split <;> rfl

/-- The line of a frame does not concern the heap. -/
theorem setLine_heap (m : Machine) (line : Nat) : (m.setLine line).heap = m.heap := by
  unfold setLine
  split <;> rfl

end Machine

namespace World

variable {w w' : World σ}

/-- A step of the interpreter lets the heap evolve, and the other steps leave it alone. -/
theorem Step.evolves (h : w.Step w') : w.machine.heap.Evolves w'.machine.heap := by
  cases h with
  | machine h => exact h.evolves
  | setup hunknown hstart =>
      cases (Vm.start_cases hstart).2 with
      | refused | badArguments => exact .refl _
      | ran =>
          simp only [Machine.options_heap]
          exact .refl _
  | record | clearErrors | learn | remember | boxed | unboxed | cleanUp => exact .refl _

end World

/-- A probe takes no object away. -/
theorem Probe.Step.evolves {probe : Probe} {w w' : World σ} (h : probe.Step w w') :
    w.machine.heap.Evolves w'.machine.heap := by
  cases h with
  | options =>
      simp only [Machine.options_heap]
      exact .refl _
  | _ => exact .refl _

/-- In a run every object becomes only what it can. -/
theorem Course.evolves {script : Option Nat} {w w' : World σ} {ending : Ending}
    (h : Course P script w ending w') : w.machine.heap.Evolves w'.machine.heap := by
  induction h with
  | done | breakOut | crash | exhausted | openBody | closeBody => exact .refl _
  | addProc => exact .alloc _ _ _
  | setLine w line =>
      simp only [Machine.setLine_heap]
      exact .refl _
  | step h => exact h.evolves
  | @register w kind run => cases kind <;> exact .refl _
  | probe hprobe h => exact h.evolves
  | raise w fault => exact w.machine.newException_evolves fault
  | @raiseObject w exception => exact w.machine.fillBacktrace_evolves exception
  | seq first rest ih₁ ih₂ => exact ih₁.trans ih₂
  | block inner ih | blockLeft inner hexit ih | script inner ih | scriptLeft inner ih
  | iterate inner ih | settled inner hparked ih | resumed inner hparked ih
  | attempt hprobe inner ih | ordinary inner ih | caught inner ih => exact ih
  | quiet inner ih =>
      rw [World.overlook_machine]
      exact ih
  | callback inner ih => exact ih.trans (Machine.newException_evolves _ _)

end EmbeddedRuby
