import EmbeddedRuby.Builtin.Number

/-!
# What an object is

The kind of an object (`Heap.typeOf`) and the readers of its contents (`Heap.int?`, `Heap.float?`,
…) look at the same word and the same slot.  This module relates them, and says what they find in an
object that was just made.

A new object has a word only while the heap fits in the words there are (`Heap.Addressable`): the
word of a slot beyond that would name another object.  No heap gets there that is held in the memory
of a machine with words of 64 bits, since a slot takes more memory than the eight words it is given.

The main statements are:

* `Heap.typeOf_of_body?`: an object with contents is of the kind that its contents say;
* `Heap.IsInteger.exists_int?`, `Heap.exists_float?_of_typeOf`: objects of the kinds of numbers have
  a number;
* `Machine.newInteger_spec`: a new integer is an integer, and has the number it was made of.
-/

namespace EmbeddedRuby

/-- The kind of an object with these contents. -/
def Body.type : Body → ValueType
  | .float _ => .float
  | .bignum _ => .bignum
  | .string _ => .string
  | .array _ => .array
  | .hash _ => .hash
  | .ofModule _ => .module
  | .plain | .exception .. | .proc _ => .object

/-- The word of a slot is none of the small integers. -/
theorem Value.fixnum?_of_slot? {v : Value} {index : Nat} (h : v.slot? = some index) :
    v.fixnum? = none := by
  unfold Value.slot? at h
  unfold Value.fixnum?
  split at h
  · cases h
  · rw [if_neg (by omega)]

/-- The word of a slot is none of the symbols. -/
theorem Value.symbol?_of_slot? {v : Value} {index : Nat} (h : v.slot? = some index) :
    v.symbol? = none := by
  unfold Value.slot? at h
  unfold Value.symbol?
  split at h
  · cases h
  · rw [if_neg (by omega)]

/-- The word of a slot is none of the words below the heap. -/
theorem Value.ne_of_slot? {v : Value} {index word : Nat} (h : v.slot? = some index)
    (hword : word < Value.heapBase) : v ≠ Value.ofWord word := by
  rintro rfl
  have hsmall : (Value.ofWord word).word.toNat = word := by
    apply Value.word_ofWord
    simp only [Value.heapBase] at hword
    omega
  unfold Value.slot? at h
  rw [hsmall, if_pos (.inl hword)] at h
  cases h

namespace Heap

variable {h : Heap} {v : Value}

/-- The next slot of the heap has a word of its own. -/
def Addressable (h : Heap) : Prop :=
  Value.heapBase + h.slots.size * 8 < 0x10000000000000000

/-- The object is an integer, in a word or in a slot. -/
def IsInteger (h : Heap) (v : Value) : Prop :=
  h.typeOf v = .fixnum ∨ h.typeOf v = .bignum

instance (h : Heap) : Decidable h.Addressable := by
  unfold Addressable
  infer_instance

/-- An object with contents refers to a slot. -/
theorem slot?_of_body? {b : Body} (hb : h.body? v = some b) :
    ∃ index, v.slot? = some index := by
  unfold body? slot? at hb
  cases hs : v.slot? with
  | none => simp [hs] at hb
  | some index => exact ⟨index, rfl⟩

/-- The word of a slot is classified by what the slot holds. -/
theorem typeOf_of_slot? {index : Nat} (hs : v.slot? = some index) :
    h.typeOf v = (h.body? v).elim .object Body.type := by
  have hfalse : v ≠ Value.ofBool false := Value.ne_of_slot? hs (by decide)
  have hnil : v ≠ Value.nil := Value.ne_of_slot? hs (by decide)
  have htrue : v ≠ Value.ofBool true := Value.ne_of_slot? hs (by decide)
  have hundef : v ≠ Value.undef := Value.ne_of_slot? hs (by decide)
  unfold typeOf
  rw [if_neg hfalse, if_neg hnil, if_neg htrue, if_neg hundef, Value.fixnum?_of_slot? hs,
    Value.symbol?_of_slot? hs]
  cases h.body? v with
  | none => rfl
  | some b => cases b <;> rfl

/-- An object with contents is of the kind that its contents say. -/
theorem typeOf_of_body? {b : Body} (hb : h.body? v = some b) : h.typeOf v = b.type := by
  obtain ⟨index, hs⟩ := slot?_of_body? hb
  rw [typeOf_of_slot? hs, hb]
  rfl

/-- A small integer is one whatever the heap holds. -/
theorem fixnum?_of_typeOf (hv : h.typeOf v = .fixnum) : v.fixnum? = some v.fixnumBits := by
  have hsome : v.fixnum?.isSome := by
    unfold typeOf at hv
    grind
  unfold Value.fixnum? at hsome ⊢
  grind

/-- What is of a kind that only contents can be of has contents. -/
theorem exists_body?_of_typeOf {type : ValueType} (hv : h.typeOf v = type)
    (htype : type ∈ [ValueType.float, .bignum, .string, .array, .hash, .module]) :
    ∃ b, h.body? v = some b ∧ b.type = type := by
  cases hb : h.body? v with
  | some b =>
      refine ⟨b, rfl, ?_⟩
      rw [← typeOf_of_body? hb, hv]
  | none =>
      exfalso
      unfold typeOf at hv
      rw [hb] at hv
      subst hv
      revert htype
      grind

/-- An integer has a number. -/
theorem IsInteger.exists_int? (hv : h.IsInteger v) : ∃ n, h.int? v = some n := by
  unfold int?
  rcases hv with hv | hv
  · rw [fixnum?_of_typeOf hv]
    exact ⟨_, rfl⟩
  · obtain ⟨b, hb, htype⟩ := exists_body?_of_typeOf hv (by decide)
    obtain ⟨index, hs⟩ := slot?_of_body? hb
    rw [Value.fixnum?_of_slot? hs, hb]
    cases b with
    | bignum n => exact ⟨n, rfl⟩
    | _ => cases htype

/-- An object of the kind of floats has a float, and is no integer. -/
theorem exists_float?_of_typeOf (hv : h.typeOf v = .float) :
    ∃ x, h.float? v = some x ∧ h.int? v = none := by
  obtain ⟨b, hb, htype⟩ := exists_body?_of_typeOf hv (by decide)
  obtain ⟨index, hs⟩ := slot?_of_body? hb
  cases b with
  | float x =>
      refine ⟨x, ?_, ?_⟩
      · unfold float?
        rw [hb]
      · unfold int?
        rw [Value.fixnum?_of_slot? hs, hb]
  | _ => cases htype

/-- What has a float is of the kind of floats. -/
theorem typeOf_of_float? {x : Double} (hx : h.float? v = some x) : h.typeOf v = .float := by
  unfold float? at hx
  split at hx
  · rename_i hb
    exact typeOf_of_body? hb
  · cases hx

/-- Only nil is of the kind of nil. -/
theorem eq_nil_of_typeOf (hv : h.typeOf v = .nil) : v = Value.nil := by
  unfold typeOf at hv
  grind

/-- Nil has no contents. -/
@[simp] theorem body?_nil (h : Heap) : h.body? Value.nil = none := by
  have hs : Value.nil.slot? = none := by decide
  simp [body?, slot?, hs]

@[simp] theorem int?_nil (h : Heap) : h.int? Value.nil = none := by
  have hn : Value.nil.fixnum? = none := by decide
  simp [int?, hn]

@[simp] theorem float?_nil (h : Heap) : h.float? Value.nil = none := by
  simp [float?]

/-- A new object has the contents it was made with. -/
theorem body?_alloc (hroom : h.Addressable) (cls : Value) (b : Body) :
    (h.alloc cls b).2.body? (h.alloc cls b).1 = some b := by
  unfold body? slot? alloc
  rw [Value.slot?_ofSlot hroom]
  simp

end Heap

/-- A small integer is of its kind whatever the heap holds. -/
theorem Heap.typeOf_of_fixnum? {h : Heap} {v : Value} {n : Int} (hn : v.fixnum? = some n) :
    h.typeOf v = .fixnum := by
  have hodd : v.word.toNat % 2 = 1 := by
    unfold Value.fixnum? at hn
    grind
  have hne : ∀ word, word % 2 = 0 → word < 0x100 → v ≠ Value.ofWord word := by
    rintro word heven hsmall rfl
    rw [Value.word_ofWord (by omega)] at hodd
    omega
  have hfalse : v ≠ Value.ofBool false := hne 0x00 rfl (by decide)
  have hnil : v ≠ Value.nil := hne 0x04 rfl (by decide)
  have htrue : v ≠ Value.ofBool true := hne 0x14 rfl (by decide)
  have hundef : v ≠ Value.undef := hne 0x24 rfl (by decide)
  unfold Heap.typeOf
  rw [if_neg hfalse, if_neg hnil, if_neg htrue, if_neg hundef, hn]
  rfl

theorem Heap.classOf_of_fixnum? {h : Heap} {v : Value} {n : Int} (hn : v.fixnum? = some n) :
    h.classOf v = CoreClass.integer.value := by
  unfold classOf
  rw [typeOf_of_fixnum? hn]

/-- A symbol is of its kind whatever the heap holds. -/
theorem Heap.typeOf_of_symbol? {h : Heap} {v : Value} {id : SymbolId} (hid : v.symbol? = some id) :
    h.typeOf v = .symbol := by
  have hmark : v.word.toNat % 256 = 0x0c := by
    unfold Value.symbol? at hid
    grind
  have hne : ∀ word, word % 256 ≠ 0x0c → word < 0x100 → v ≠ Value.ofWord word := by
    rintro word hother hsmall rfl
    rw [Value.word_ofWord (by omega)] at hmark
    exact hother hmark
  have hfalse : v ≠ Value.ofBool false := hne 0x00 (by decide) (by decide)
  have hnil : v ≠ Value.nil := hne 0x04 (by decide) (by decide)
  have htrue : v ≠ Value.ofBool true := hne 0x14 (by decide) (by decide)
  have hundef : v ≠ Value.undef := hne 0x24 (by decide) (by decide)
  have hfixnum : v.fixnum? = none := by
    unfold Value.fixnum?
    rw [if_neg (by omega)]
  unfold Heap.typeOf
  rw [if_neg hfalse, if_neg hnil, if_neg htrue, if_neg hundef, hfixnum, hid]
  rfl

/-- An integer comes back from the object that it is made into, if it fits in a word or there is room. -/
theorem Heap.int?_ofInteger {h : Heap} {n : Int}
    (hroom : fixnumMin ≤ n ∧ n ≤ fixnumMax ∨ h.Addressable) :
    (h.ofInteger n).2.int? (h.ofInteger n).1 = some n := by
  unfold ofInteger
  by_cases hfits : fixnumMin ≤ n ∧ n ≤ fixnumMax
  · rw [if_pos hfits]
    unfold int?
    rw [Value.fixnum?_ofFixnum hfits.1 hfits.2]
  · rw [if_neg hfits]
    have hb := body?_alloc (hroom.resolve_left hfits) CoreClass.integer.value (.bignum n)
    obtain ⟨index, hs⟩ := slot?_of_body? hb
    unfold int?
    rw [Value.fixnum?_of_slot? hs, hb]

/-- A new integer is an integer, and has the number it was made of. -/
theorem Machine.newInteger_spec (m : Machine) (n : Int) (hroom : m.heap.Addressable) :
    (m.newInteger n).2.heap.IsInteger (m.newInteger n).1 ∧
    (m.newInteger n).2.heap.int? (m.newInteger n).1 = some n := by
  refine ⟨?_, Heap.int?_ofInteger (.inr hroom)⟩
  unfold newInteger Heap.ofInteger
  by_cases hfits : fixnumMin ≤ n ∧ n ≤ fixnumMax
  · rw [if_pos hfits]
    exact .inl (Heap.typeOf_of_fixnum? (Value.fixnum?_ofFixnum hfits.1 hfits.2))
  · rw [if_neg hfits]
    exact .inr (Heap.typeOf_of_body? (Heap.body?_alloc hroom CoreClass.integer.value (.bignum n)))

end EmbeddedRuby
