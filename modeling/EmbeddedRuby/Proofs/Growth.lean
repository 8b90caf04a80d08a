import Mathlib.Data.List.Forall2
import EmbeddedRuby.Proofs.Names
import EmbeddedRuby.Proofs.Objects
import EmbeddedRuby.Proofs.Utf8

/-!
# New objects beside the old ones

The heap only grows, so what was found in it is found again: an object with its class and its
contents (`Heap.slot?_alloc_of_some`), and the method that a class has under a name
(`Machine.Steps.answers`).  The latter is not plain: a class is followed upwards for as many rounds
as the heap has slots, and a superclass may have been made up before it was there.  But a longer way
begins with the shorter one (`Heap.Evolves.chain_prefix`), and the first method on it counts.

As long as there is room in the heap (`Heap.HasRoom`) a new object has a word of its own; so an
exception that is made for a fault stands there with all its parts (`Machine.newException_spec`).
-/

namespace EmbeddedRuby

namespace Heap

variable {h h' : Heap} {v cls : Value}

/-! ### What stays -/

/-- The way upwards begins as it did, and may go further. -/
theorem Evolves.chain_prefix (hevolves : h.Evolves h') {n k : Nat} (hle : n ≤ k) (v : Value) :
    h.chain n v <+: h'.chain k v := by
  have hfirst : ∀ k v, ∃ rest, h'.chain k v = v :: rest := by
    intro k v
    unfold chain
    split
    · exact ⟨[], rfl⟩
    · split
      · exact ⟨_, rfl⟩
      · exact ⟨[], rfl⟩
  induction n generalizing k v with
  | zero =>
      obtain ⟨rest, hrest⟩ := hfirst k v
      exact ⟨rest, hrest.symm⟩
  | succ n ih =>
      obtain ⟨k, rfl⟩ : ∃ k', k = k' + 1 := ⟨k - 1, by omega⟩
      cases hparent : (h.module? v).bind ModuleData.superclass with
      | none =>
          obtain ⟨rest, hrest⟩ := hfirst (k + 1) v
          rw [chain, hparent]
          exact ⟨rest, hrest.symm⟩
      | some parent =>
          obtain ⟨data, hdata, hsuper⟩ := Option.bind_eq_some_iff.mp hparent
          obtain ⟨data', hdata', hsuper'⟩ := hevolves.module? hdata
          have hparent' : (h'.module? v).bind ModuleData.superclass = some parent := by
            rw [hdata', Option.bind_some, hsuper', hsuper]
          rw [chain, chain, hparent, hparent']
          exact (List.cons_prefix_cons).mpr ⟨rfl, ih (by omega) parent⟩

/-- A heap never becomes smaller. -/
theorem Evolves.size_le (hevolves : h.Evolves h') : h.slots.size ≤ h'.slots.size := by
  apply Nat.le_of_not_lt
  intro hlt
  obtain ⟨slot', hslot', -⟩ := hevolves h'.slots.size _ (Array.getElem?_eq_getElem hlt)
  exact Nat.lt_irrefl _ (Array.getElem?_eq_some_iff.mp hslot').1

/-- A new object is there with its class and the contents it was made with. -/
theorem slot?_alloc (hroom : h.Addressable) (cls : Value) (b : Body) :
    (h.alloc cls b).2.slot? (h.alloc cls b).1 = some ⟨cls, b⟩ := by
  unfold slot? alloc
  rw [Value.slot?_ofSlot hroom]
  simp

/-- An object with a slot is of the class that stands there. -/
theorem classOf_of_slot? {b : Body} (hslot : h.slot? v = some ⟨cls, b⟩) :
    h.classOf v = cls := by
  unfold classOf
  rw [typeOf_of_body? (body?_of_slot? hslot), hslot]
  cases b <;> rfl

/-- The class of an object depends on its slot alone. -/
theorem classOf_eq_of_slot? {h' : Heap} (hslot : h'.slot? v = h.slot? v) :
    h'.classOf v = h.classOf v := by
  unfold classOf typeOf body?
  rw [hslot]

/-- A module comes before those above it. -/
theorem ancestors_eq_cons (h : Heap) (module : Value) :
    ∃ above, h.ancestors module = module :: above := by
  unfold ancestors
  cases h.slots.size with
  | zero => exact ⟨[], rfl⟩
  | succ fuel =>
      rw [chain]
      split
      · exact ⟨_, rfl⟩
      · exact ⟨[], rfl⟩

/-! ### Room -/

/-- So many more objects have words of their own. -/
def HasRoom (h : Heap) (count : Nat) : Prop :=
  Value.heapBase + (h.slots.size + count) * 8 ≤ 0x10000000000000000

instance (h : Heap) (count : Nat) : Decidable (h.HasRoom count) := by
  unfold HasRoom
  infer_instance

/-- Where there is room for some objects there is room for fewer. -/
theorem HasRoom.mono {count fewer : Nat} (hroom : h.HasRoom count) (hle : fewer ≤ count) :
    h.HasRoom fewer := by
  unfold HasRoom at hroom ⊢
  omega

/-- A heap that fits in the words there are did so before. -/
theorem HasRoom.of_evolves {count : Nat} (hroom : h'.HasRoom count) (hevolves : h.Evolves h') :
    h.HasRoom count := by
  have hsize := hevolves.size_le
  unfold HasRoom at hroom ⊢
  omega

/-- Where there is room for one more object, that has a word of its own. -/
theorem HasRoom.addressable {count : Nat} (hroom : h.HasRoom (count + 1)) : h.Addressable := by
  unfold HasRoom at hroom
  unfold Addressable
  omega

/-- A new object takes the room of one. -/
theorem HasRoom.alloc {count : Nat} (hroom : h.HasRoom (count + 1)) (cls : Value) (b : Body) :
    (h.alloc cls b).2.HasRoom count := by
  unfold HasRoom at hroom ⊢
  unfold Heap.alloc
  rw [Array.size_push]
  omega

/-- An Integer takes no more than that. -/
theorem HasRoom.ofInteger {count : Nat} (hroom : h.HasRoom (count + 1)) (n : Int) :
    (h.ofInteger n).2.HasRoom count := by
  unfold Heap.ofInteger
  split
  · exact hroom.mono (Nat.le_succ count)
  · exact hroom.alloc _ _

/-! ### Strings and exceptions -/

/-- The object is a string. -/
def IsString (h : Heap) (v : Value) : Prop :=
  ∃ bytes, h.body? v = some (.string bytes)

/-- A string is there still when another object was made. -/
theorem IsString.alloc (hv : h.IsString v) (cls : Value) (b : Body) :
    (h.alloc cls b).2.IsString v := by
  obtain ⟨bytes, hbytes⟩ := hv
  exact ⟨bytes, body?_alloc_of_some hbytes cls b⟩

/-- The type of a string is that of a string. -/
theorem IsString.typeOf (hv : h.IsString v) : h.typeOf v = .string := by
  obtain ⟨bytes, hbytes⟩ := hv
  exact typeOf_of_body? hbytes

/-- The object is a string that is read as this text. -/
def Reads (h : Heap) (v : Value) (text : String) : Prop :=
  ∃ bytes, h.body? v = some (.string bytes) ∧ Utf8.stringLossy bytes = text

namespace Reads

variable {text : String}

/-- What is read as a text is a string. -/
theorem isString (hv : h.Reads v text) : h.IsString v := by
  obtain ⟨bytes, hbytes, -⟩ := hv
  exact ⟨bytes, hbytes⟩

/-- A string is read as it was as long as the objects are kept. -/
theorem kept (hv : h.Reads v text) (hkept : h.KeepsSlots h') : h'.Reads v text := by
  obtain ⟨bytes, hbytes, htext⟩ := hv
  exact ⟨bytes, hkept.body? hbytes, htext⟩

/-- A new string is read as the text that it was made from. -/
theorem new (hroom : h.Addressable) (text : String) :
    (h.alloc CoreClass.string.value (.string (Utf8.encodeString text))).2.Reads
      (h.alloc CoreClass.string.value (.string (Utf8.encodeString text))).1 text :=
  ⟨_, body?_alloc hroom _ _, Utf8.stringLossy_encodeString text⟩

end Reads

/-- The object is an array of strings that are read as these texts. -/
def ReadsAll (h : Heap) (array : Value) (texts : List String) : Prop :=
  ∃ lines, h.slot? array = some ⟨CoreClass.array.value, .array lines⟩ ∧
    List.Forall₂ h.Reads lines texts

namespace ReadsAll

variable {array : Value} {texts : List String}

/-- The strings of an array are read as they were as long as the objects are kept. -/
theorem kept (ha : h.ReadsAll array texts) (hkept : h.KeepsSlots h') : h'.ReadsAll array texts := by
  obtain ⟨lines, hslot, hlines⟩ := ha
  exact ⟨lines, hkept _ _ hslot, hlines.imp fun _ _ hline => hline.kept hkept⟩

/-- The class of such an array is `Array`. -/
theorem classOf (ha : h.ReadsAll array texts) : h.classOf array = CoreClass.array.value := by
  obtain ⟨lines, hslot, -⟩ := ha
  exact classOf_of_slot? hslot

/-- The type of such an array is that of an array. -/
theorem typeOf (ha : h.ReadsAll array texts) : h.typeOf array = .array := by
  obtain ⟨lines, hslot, -⟩ := ha
  exact typeOf_of_body? (body?_of_slot? hslot)

end ReadsAll

/-- An exception with a string for a message, and with a backtrace of these lines. -/
structure ExceptionAt (h : Heap) (cls exception message trace : Value) (texts : List String) :
    Prop where
  slot : h.slot? exception = some ⟨cls, .exception message trace⟩
  message : h.IsString message
  trace : h.ReadsAll trace texts

namespace ExceptionAt

variable {exception message trace : Value} {texts : List String}

/-- An exception stands there still when another object was made. -/
theorem alloc (he : h.ExceptionAt cls exception message trace texts) (other : Value) (b : Body) :
    (h.alloc other b).2.ExceptionAt cls exception message trace texts where
  slot := slot?_alloc_of_some he.slot other b
  message := he.message.alloc other b
  trace := he.trace.kept (.alloc h other b)

/-- An exception is of the class that it was made for. -/
theorem classOf (he : h.ExceptionAt cls exception message trace texts) :
    h.classOf exception = cls :=
  classOf_of_slot? he.slot

/-- The parts of an exception are the message and the backtrace that it was made with. -/
theorem exceptionParts (he : h.ExceptionAt cls exception message trace texts) :
    h.exceptionParts exception = (message, trace) := by
  unfold Heap.exceptionParts
  rw [body?_of_slot? he.slot]

end ExceptionAt

end Heap

namespace Machine

variable {m m' : Machine} {cls : Value} {name : String} {b : Builtin}

/-! ### Methods -/

/-- The class has under this name a method of the interpreter's own. -/
def Answers (m : Machine) (cls : Value) (name : String) (b : Builtin) : Prop :=
  ∃ id, m.symbols.find? name = some id ∧ m.findMethod cls id = some (.builtin b)

/-- The method that was found for a class is found still, as long as the class and those above it have
the methods under its number that they had. -/
theorem findMethod_of_kept {id : SymbolId} {method : Method}
    (hmethod : m.findMethod cls id = some method) (hevolves : m.heap.Evolves m'.heap)
    (hmethods : ∀ module, m'.methods.get? (module, id) = m.methods.get? (module, id)) :
    m'.findMethod cls id = some method := by
  have hprefix : m.heap.ancestors cls <+: m'.heap.ancestors cls :=
    hevolves.chain_prefix hevolves.size_le cls
  unfold findMethod at hmethod ⊢
  simp only [hmethods]
  exact hprefix.findSome?_eq_some hmethod

/-- A method is answered as long as the class and those above it have the methods under its name
that they had. -/
theorem Answers.of_kept (hm : m.Answers cls name b) (hevolves : m.heap.Evolves m'.heap)
    (hkept : ∀ id, m.symbols.find? name = some id → m'.symbols.find? name = some id ∧
      ∀ module, m'.methods.get? (module, id) = m.methods.get? (module, id)) :
    m'.Answers cls name b := by
  obtain ⟨id, hid, hmethod⟩ := hm
  obtain ⟨hid', hmethods⟩ := hkept id hid
  exact ⟨id, hid', findMethod_of_kept hmethod hevolves hmethods⟩

/-- No step of the interpreter defines a method. -/
theorem Steps.methods_eq (h : m.Steps m') : m'.methods = m.methods := by
  rw [Steps.frame h]

/-- Giving an exception a backtrace defines no method. -/
theorem fillBacktrace_methods (m : Machine) (exception : Value) :
    (m.fillBacktrace exception).methods = m.methods := by
  obtain ⟨m₁, heap, hsteps, heq⟩ := m.fillBacktrace_eq exception
  simp only [heq, Steps.methods_eq hsteps]

/-- Steps of the interpreter take no method away. -/
theorem Steps.answers (h : m.Steps m') (hm : m.Answers cls name b) : m'.Answers cls name b :=
  hm.of_kept h.evolves fun id hid => ⟨Steps.find?_kept h hid, fun module => by
    rw [Steps.methods_eq h]⟩

/-! ### A new exception -/

/-- Texts take as much room as there are of them. -/
theorem newTexts_hasRoom {count : Nat} (texts : List String) {m : Machine}
    (hroom : m.heap.HasRoom (count + texts.length)) :
    (m.newTexts texts).2.heap.HasRoom count := by
  induction texts generalizing m with
  | nil => exact hroom
  | cons text rest ih => exact ih (m := (m.newText text).2) (hroom.alloc _ _)

/-- New texts are read as what they were made from, each in its place. -/
theorem newTexts_reads (texts : List String) {m : Machine} (hroom : m.heap.HasRoom texts.length) :
    List.Forall₂ (m.newTexts texts).2.heap.Reads (m.newTexts texts).1 texts := by
  induction texts generalizing m with
  | nil => exact .nil
  | cons text rest ih =>
      have hnew : (m.newText text).2.heap.Reads (m.newText text).1 text :=
        .new hroom.addressable text
      refine .cons (hnew.kept (newTexts_keepsSlots _ rest)) ?_
      exact ih (m := (m.newText text).2) (hroom.alloc _ _)

/-- A backtrace that is made is one of the frames that there are. -/
theorem backtrace_spec {count : Nat} (hroom : m.heap.HasRoom (count + m.frames.length + 1)) :
    m.backtrace.2.heap.ReadsAll m.backtrace.1 (m.frames.map Frame.render) ∧
      m.backtrace.2.heap.HasRoom count := by
  let texts := m.frames.map Frame.render
  let made := (m.newTexts texts).2
  have htexts : texts.length = m.frames.length := List.length_map _
  have hspare : m.heap.HasRoom (count + 1 + texts.length) := hroom.mono (by omega)
  have hroom' : made.heap.HasRoom (count + 1) := newTexts_hasRoom texts hspare
  have hlines := newTexts_reads texts (hspare.mono (Nat.le_add_left _ _))
  refine ⟨⟨_, Heap.slot?_alloc hroom'.addressable _ _, ?_⟩, hroom'.alloc _ _⟩
  exact hlines.imp fun _ _ hline => hline.kept (.alloc _ _ _)

/-- An exception that is made for a fault stands there with all its parts. -/
theorem newException_spec (fault : Fault) {count : Nat}
    (hroom : m.heap.HasRoom (count + m.frames.length + 3)) :
    (∃ message trace, (m.newException fault).2.heap.ExceptionAt fault.cls.value
      (m.newException fault).1 message trace (m.frames.map Frame.render)) ∧
    (m.newException fault).2.heap.HasRoom count := by
  let m₁ := (m.newText fault.message).2
  have hroom₁ : m₁.heap.HasRoom (count + 1 + m₁.frames.length + 1) := by
    have hmade : m₁.heap.HasRoom (count + m.frames.length + 2) := hroom.alloc _ _
    have hframes : m₁.frames.length = m.frames.length := rfl
    exact hmade.mono (by omega)
  obtain ⟨htrace, hroom₂⟩ := backtrace_spec hroom₁
  have hmessage : m₁.heap.IsString (m.newText fault.message).1 :=
    ⟨_, Heap.body?_alloc hroom.addressable _ _⟩
  obtain ⟨bytes, hbytes⟩ := hmessage
  refine ⟨⟨(m.newText fault.message).1, m₁.backtrace.1, ?_⟩, hroom₂.alloc _ _⟩
  exact ⟨Heap.slot?_alloc hroom₂.addressable _ _,
    ⟨bytes, Heap.body?_alloc_of_some (backtrace_body? hbytes) _ _⟩, htrace.kept (.alloc _ _ _)⟩

/-- The message of an exception that is made for a fault is the one of the fault. -/
theorem newException_reads (fault : Fault) {count : Nat}
    (hroom : m.heap.HasRoom (count + m.frames.length + 3)) {exceptionClass message trace : Value}
    (hslot : (m.newException fault).2.heap.slot? (m.newException fault).1 =
      some ⟨exceptionClass, .exception message trace⟩) :
    (m.newException fault).2.heap.Reads message fault.message := by
  let made := m.newText fault.message
  have hmade : made.2.heap.Reads made.1 fault.message := .new hroom.addressable fault.message
  have hkept : made.2.heap.KeepsSlots (m.newException fault).2.heap :=
    (backtrace_keepsSlots made.2).trans (.alloc _ _ _)
  have hroom₁ : made.2.heap.HasRoom (count + 1 + made.2.frames.length + 1) := by
    have hleft : made.2.heap.HasRoom (count + m.frames.length + 2) := hroom.alloc _ _
    have hframes : made.2.frames.length = m.frames.length := rfl
    exact hleft.mono (by omega)
  have hnew := Heap.slot?_alloc (backtrace_spec hroom₁).2.addressable fault.cls.value
    (.exception made.1 made.2.backtrace.1)
  obtain ⟨-, hbody⟩ := Slot.mk.inj (Option.some.inj (hnew.symm.trans hslot))
  cases hbody
  exact hmade.kept hkept

end Machine

end EmbeddedRuby
