import Mathlib.Algebra.Group.Int.Defs
import Mathlib.Algebra.Group.Nat.Defs
import EmbeddedRuby.Proofs.Changes
import EmbeddedRuby.Proofs.Objects
import EmbeddedRuby.Proofs.Superclasses

/-!
# What a word is made from

Constants, small integers, symbols and the slots of the heap share the words of 64 bits.  What a word is
made from (`Referent`) is told by tests on its bits: a word is made from one thing only
(`Referent.value_injective`), it is classified as that (`Referent.typeOf_value`), and the reader of its
kind gives back the number that was put into it.

Integers are **canonical** (`Heap.Canonical`): one that fits in a word has no slot.  There is one way to
make an integer into an object, which looks at its size, and nothing turns one object into another; so
this is kept by all that happens in a run, made-up handles or not (`World.Change.canonical`).

The main statement is `World.words_tell_apart`.
-/

namespace EmbeddedRuby

open Eval

/-! ### Words and what they are made from -/

/-- What a word can be made from. -/
inductive Referent where
  | nil
  | true
  | false
  | undef
  | fixnum (n : Int)
  | symbol (id : SymbolId)
  | slot (place : Nat)
deriving DecidableEq

namespace Referent

/-- The word that is made from it. -/
def value : Referent → Value
  | nil => Value.nil
  | true => Value.ofBool Bool.true
  | false => Value.ofBool Bool.false
  | undef => Value.undef
  | fixnum n => Value.ofFixnum n
  | symbol id => Value.ofSymbol id
  | slot place => Value.ofSlot place

/-- Its number, if it has one, fits in the word beside the mark of its kind. -/
def HasWord : Referent → Prop
  | nil | true | false | undef => True
  | fixnum n => -2 ^ 62 ≤ n ∧ n < 2 ^ 62
  | symbol id => id.number < 2 ^ 56
  | slot place => Value.heapBase + 8 * place < 2 ^ 64

/-- Its kind in a heap; a slot is of the kind of what it holds. -/
def kind (h : Heap) : Referent → ValueType
  | nil => .nil
  | true => .true
  | false => .false
  | undef => .undef
  | fixnum _ => .fixnum
  | symbol _ => .symbol
  | slot place => (h.slots[place]?.map Slot.body).elim .object Body.type

end Referent

/-- A small integer is one whose number has room beside the mark. -/
theorem fixnum_bounds_iff {n : Int} : fixnumMin ≤ n ∧ n ≤ fixnumMax ↔ -2 ^ 62 ≤ n ∧ n < 2 ^ 62 := by
  unfold fixnumMin fixnumMax
  omega

namespace Referent

variable {r s : Referent}

/-- The reader of small integers gives back the number. -/
theorem fixnum?_value {n : Int} (hn : (fixnum n).HasWord) : (fixnum n).value.fixnum? = some n := by
  obtain ⟨hlow, hhigh⟩ := fixnum_bounds_iff.mpr hn
  exact Value.fixnum?_ofFixnum hlow hhigh

/-- The reader of symbols gives back the symbol. -/
theorem symbol?_value {id : SymbolId} (hid : (symbol id).HasWord) :
    (symbol id).value.symbol? = some id :=
  Value.symbol?_ofSymbol hid

/-- The reader of slots gives back the place. -/
theorem slot?_value {place : Nat} (hplace : (slot place).HasWord) :
    (slot place).value.slot? = some place := by
  refine Value.slot?_ofSlot ?_
  unfold HasWord at hplace
  omega

/-- **A word is classified as what it was made from.** -/
theorem typeOf_value (h : Heap) (hr : r.HasWord) : h.typeOf r.value = r.kind h := by
  cases r with
  | nil | true | false | undef => rfl
  | fixnum n => exact Heap.typeOf_of_fixnum? (fixnum?_value hr)
  | symbol id => exact Heap.typeOf_of_symbol? (symbol?_value hr)
  | slot place =>
      have hplace := slot?_value hr
      rw [Heap.typeOf_of_slot? hplace, Heap.body?_of_place hplace]
      rfl

/-- **No word is made from two things.**  Words of different kinds are apart because an empty heap
classifies them differently, and words of one kind because the reader of that kind gives back what was
put in. -/
theorem value_injective (hr : r.HasWord) (hs : s.HasWord) (hsame : r.value = s.value) : r = s := by
  have hkind : r.kind {} = s.kind {} := by
    rw [← typeOf_value {} hr, ← typeOf_value {} hs, hsame]
  cases r with
  | nil =>
      cases s with
      | nil => rfl
      | _ => cases hkind
  | true =>
      cases s with
      | true => rfl
      | _ => cases hkind
  | false =>
      cases s with
      | false => rfl
      | _ => cases hkind
  | undef =>
      cases s with
      | undef => rfl
      | _ => cases hkind
  | fixnum n =>
      cases s with
      | fixnum n' =>
          have hread := fixnum?_value hs
          rw [← hsame, fixnum?_value hr, Option.some.injEq] at hread
          rw [hread]
      | _ => cases hkind
  | symbol id =>
      cases s with
      | symbol id' =>
          have hread := symbol?_value hs
          rw [← hsame, symbol?_value hr, Option.some.injEq] at hread
          rw [hread]
      | _ => cases hkind
  | slot place =>
      cases s with
      | slot place' =>
          have hread := slot?_value hs
          rw [← hsame, slot?_value hr, Option.some.injEq] at hread
          rw [hread]
      | _ => cases hkind

end Referent

/-! ### Integers as objects -/

namespace Heap

/-- What an integer is made into is a small integer if its number has room in a word, and else no small
integer. -/
theorem typeOf_ofInteger_iff (h : Heap) (m : Int) :
    (h.ofInteger m).2.typeOf (h.ofInteger m).1 = .fixnum ↔ -2 ^ 62 ≤ m ∧ m < 2 ^ 62 := by
  rw [← fixnum_bounds_iff]
  unfold ofInteger
  split
  · rename_i hfits
    exact iff_of_true (typeOf_of_fixnum? (Value.fixnum?_ofFixnum hfits.1 hfits.2)) hfits
  · rename_i hbig
    refine iff_of_false (fun hkind => ?_) hbig
    have heven : (Value.ofSlot h.slots.size).word.toNat % 2 = 0 := by
      simp only [Value.ofSlot, Value.ofWord, Value.heapBase, UInt64.toNat_ofNat']
      omega
    have hread : (Value.ofSlot h.slots.size).fixnum? = some _ := fixnum?_of_typeOf hkind
    unfold Value.fixnum? at hread
    rw [if_neg (by omega)] at hread
    cases hread

/-- An integer that is no word of its own has its number in a slot. -/
theorem body?_of_int? {h : Heap} {v : Value} {n : Int} (hword : v.fixnum? = none)
    (hn : h.int? v = some n) : h.body? v = some (.bignum n) := by
  unfold int? at hn
  rw [hword] at hn
  cases hb : h.body? v with
  | none =>
      rw [hb] at hn
      cases hn
  | some b =>
      rw [hb] at hn
      cases b <;> cases hn
      rfl

end Heap

/-! ### Canonical integers -/

/-- If these are the contents of an integer, it has no room in a word. -/
def Body.Canonical : Body → Prop
  | .bignum n => ¬(-2 ^ 62 ≤ n ∧ n < 2 ^ 62)
  | _ => True

theorem Body.Becomes.canonical {b b' : Body} (h : b.Becomes b') (hb : b.Canonical) : b'.Canonical := by
  cases h with
  | same => exact hb
  | _ => trivial

namespace Heap

variable {h h' : Heap}

/-- No integer with room in a word has a slot. -/
def Canonical (h : Heap) : Prop :=
  h.Each fun _ slot => slot.body.Canonical

theorem Canonical.of_size (hcanonical : h.Canonical) (hevolves : h.Evolves h')
    (hsize : h'.slots.size = h.slots.size) : h'.Canonical :=
  Each.of_size hcanonical (fun hb hbecomes => hbecomes.canonical hb) hevolves hsize

end Heap

/-- A step adds at most one object, and that is canonical. -/
theorem Machine.Step.heap_cases {m m' : Machine} (h : m.Step m') :
    m'.heap.slots.size = m.heap.slots.size ∨
      ∃ (cls : Value) (b : Body), b.Canonical ∧ m'.heap = (m.heap.alloc cls b).2 := by
  cases h with
  | string bytes => exact .inr ⟨_, .string bytes, trivial, rfl⟩
  | float x => exact .inr ⟨_, .float x, trivial, rfl⟩
  | array items => exact .inr ⟨_, .array items, trivial, rfl⟩
  | module name superclass => exact .inr ⟨_, .ofModule _, trivial, rfl⟩
  | «instance» cls hbody =>
      refine .inr ⟨cls, _, ?_, rfl⟩
      cases ‹Body› with
      | bignum => exact hbody.elim
      | _ => trivial
  | integer n =>
      show (m.heap.ofInteger n).2.slots.size = _ ∨
        ∃ (cls : Value) (b : Body), b.Canonical ∧ (m.heap.ofInteger n).2 = _
      unfold Heap.ofInteger
      split
      · exact .inl rfl
      · rename_i hbig
        exact .inr ⟨_, .bignum n, mt fixnum_bounds_iff.mpr hbig, rfl⟩
  | setConstant | setClassVar => exact .inl (Heap.size_changeModule _ _ _)
  | storeInHash hash key value =>
      unfold Machine.storeInHash
      split
      · exact .inl (Heap.size_setBody _ _ _)
      · exact .inl rfl
  | pushItems array items =>
      unfold Methods.pushItems
      split
      · exact .inl (Heap.size_setBody _ _ _)
      · exact .inl rfl
  | intern | countIntern | newTarget | print => exact .inl rfl

theorem Machine.Step.canonical {m m' : Machine} (h : m.Step m') (hm : m.heap.Canonical) :
    m'.heap.Canonical := by
  rcases h.heap_cases with hsize | ⟨cls, b, hb, heq⟩
  · exact hm.of_size h.evolves hsize
  · rw [heq]
    exact Heap.Each.alloc hm hb

/-- There are no integers among the objects of a fresh interpreter. -/
theorem Machine.boot_canonical : boot.heap.Canonical := by
  have hcore : Heap.Canonical ⟨coreSlots⟩ := by
    intro place slot hslot
    obtain ⟨core, -, rfl⟩ := exists_core_of_getElem? hslot
    trivial
  exact hcore.of_size boot_evolves boot_size

namespace World

variable {σ : Type} {P : Probe → Prop} {w v : World σ}

/-- **Whatever happens in a run, integers stay canonical.** -/
theorem Change.canonical (h : w.Change P v) (hw : w.machine.heap.Canonical) :
    v.machine.heap.Canonical :=
  h.keeps_heap Machine.Step.canonical (fun _ hkept => Heap.Each.alloc hkept trivial)
    (fun trace hbody hkept => hkept.of_size (.setBody fun old hold => by
      obtain rfl := Option.some.inj (hold.symm.trans hbody)
      exact .exception _ _ _) (Heap.size_setBody _ _ _)) hw

/-- **A word is made from one thing, and tells what it is.**  The constants, the small integers of 63
bits, the symbols with numbers of 56 bits and the slots as far as words go have words that are all
different; every heap classifies each of them as what it was made from, and its reader gives back the
number, the symbol or the slot.

An integer comes back from the object that it is made into, as long as the heap has a word for its next
slot where one is needed.  The object is a small integer just in case the number has room in a word; and
whatever runs have done since the interpreter was fresh, with words that were made up or not, no integer
that has room in a word is found in a slot. -/
theorem words_tell_apart (hboot : w.machine.heap = Machine.boot.heap) (hreaches : w.Reaches AnyProbe v) :
    (∀ fuel role (program : Program σ role),
      v.Reaches AnyProbe (Outcome.world (program.run (.ofFuel fuel) v))) ∧
    (∀ r s : Referent, r.HasWord → s.HasWord → (r.value = s.value ↔ r = s)) ∧
    (∀ (h : Heap) (r : Referent), r.HasWord → h.typeOf r.value = r.kind h) ∧
    (∀ n : Int, -2 ^ 62 ≤ n → n < 2 ^ 62 →
      (Value.ofFixnum n).fixnumBits = n ∧ (Value.ofFixnum n).fixnum? = some n) ∧
    (∀ id : SymbolId, id.number < 2 ^ 56 → (Value.ofSymbol id).symbol? = some id) ∧
    (∀ (h : Heap) place slot, h.slots[place]? = some slot → 0x1000 + 8 * place < 2 ^ 64 →
      h.slot? (Value.ofSlot place) = some slot) ∧
    (∀ (h : Heap) (m : Int), let made := h.ofInteger m
      (-2 ^ 62 ≤ m ∧ m < 2 ^ 62 ∨ h.Addressable → made.2.int? made.1 = some m) ∧
      (made.2.typeOf made.1 = .fixnum ↔ -2 ^ 62 ≤ m ∧ m < 2 ^ 62)) ∧
    ∀ (place : Nat) (slot : Slot) n, v.machine.heap.slots[place]? = some slot → slot.body = .bignum n →
      ¬(-2 ^ 62 ≤ n ∧ n < 2 ^ 62) := by
  have hfresh : w.machine.heap.Canonical := by
    rw [hboot]
    exact Machine.boot_canonical
  have hcanonical : v.machine.heap.Canonical :=
    hreaches.kept (fun hchange => hchange.canonical) hfresh
  refine ⟨fun fuel role program => program.reaches_run fuel v, ?_, fun h r => Referent.typeOf_value h,
    ?_, fun id hid => Referent.symbol?_value hid, ?_, ?_, ?_⟩
  · intro r s hr hs
    exact ⟨Referent.value_injective hr hs, congrArg Referent.value⟩
  · intro n hlow hhigh
    have hread : (Value.ofFixnum n).fixnum? = some n := Referent.fixnum?_value ⟨hlow, hhigh⟩
    have hbits := Heap.fixnum?_of_typeOf (Heap.typeOf_of_fixnum? (h := {}) hread)
    exact ⟨Option.some.inj (hbits.symm.trans hread), hread⟩
  · intro h place slot hslot hplace
    have hread : (Value.ofSlot place).slot? = some place := Referent.slot?_value hplace
    unfold Heap.slot?
    rw [hread, Option.bind_some, hslot]
  · intro h m made
    refine ⟨fun hroom => ?_, Heap.typeOf_ofInteger_iff h m⟩
    rw [← fixnum_bounds_iff] at hroom
    exact Heap.int?_ofInteger hroom
  · intro place slot n hslot hbody
    have hslotCanonical : slot.body.Canonical := hcanonical place slot hslot
    rw [hbody] at hslotCanonical
    exact hslotCanonical

/-- A program that writes the least integer without room in a word. -/
def integerWriting : Program Unit .main :=
  .ask (.writeInt .i64 (2 ^ 62)) fun _ => .done ()

/-- The world in which it was run in a fresh interpreter. -/
def withInteger : World Unit :=
  Outcome.world (integerWriting.run (.ofFuel 1) { memory := () })

/-- A program writes the least integer without room in a word: it is found in a slot, under its number,
and to make it once more makes another object with its number.  The words of `7`, of the symbol with
number 7 and of the slot in place 7 are apart. -/
theorem words_tell_apart_written :
    let made := withInteger.machine.heap.ofInteger (2 ^ 62)
    ({ memory := () } : World Unit).Reaches AnyProbe withInteger ∧
      (∃ slot, withInteger.machine.heap.slots[CoreClass.all.length]? = some slot ∧
        slot.body = .bignum (2 ^ 62) ∧ ¬(-2 ^ 62 ≤ (2 : Int) ^ 62 ∧ (2 : Int) ^ 62 < 2 ^ 62)) ∧
      made.2.typeOf made.1 ≠ .fixnum ∧ made.2.int? made.1 = some (2 ^ 62) ∧
      (Referent.fixnum 7).value ≠ (Referent.symbol ⟨7⟩).value ∧
      (Referent.symbol ⟨7⟩).value ≠ (Referent.slot 7).value ∧
      withInteger.machine.heap.slot? (Value.ofSlot 7) = withInteger.machine.heap.slots[7]? := by
  intro made
  have hran : withInteger.machine.heap.int? Machine.firstMade = some (2 ^ 62) ∧
      withInteger.machine.heap.slots.size = CoreClass.all.length + 1 := by
    decide +kernel
  obtain ⟨hwritten, hsize⟩ := hran
  have hroom : withInteger.machine.heap.Addressable := by
    unfold Heap.Addressable
    rw [hsize]
    decide
  have hplace : 7 < withInteger.machine.heap.slots.size := by
    rw [hsize]
    decide
  obtain ⟨place, slot, hfirst, hslot, hbody⟩ :=
    Heap.exists_place (Heap.body?_of_int? (by decide) hwritten)
  obtain rfl : CoreClass.all.length = place := Option.some.inj hfirst
  have hboot : ({ memory := () } : World Unit).machine.heap = Machine.boot.heap := rfl
  have hreaches : ({ memory := () } : World Unit).Reaches AnyProbe withInteger := by
    rw [withInteger]
    exact (words_tell_apart hboot .refl).1 1 .main integerWriting
  obtain ⟨-, happart, -, -, -, hslots, hintegers, hlarge⟩ := words_tell_apart hboot hreaches
  obtain ⟨hback, hkind⟩ := hintegers withInteger.machine.heap (2 ^ 62)
  have hbig : ¬(-2 ^ 62 ≤ (2 : Int) ^ 62 ∧ (2 : Int) ^ 62 < 2 ^ 62) := hlarge _ slot _ hslot hbody
  have hseven : (Referent.fixnum 7).HasWord := ⟨by decide, by decide⟩
  have hsymbol : (Referent.symbol ⟨7⟩).HasWord := show 7 < 2 ^ 56 by decide
  have hslotWord : (Referent.slot 7).HasWord := show 0x1000 + 8 * 7 < 2 ^ 64 by decide
  refine ⟨hreaches, ⟨slot, hslot, hbody, hbig⟩, mt hkind.mp hbig, hback (.inr hroom), ?_, ?_, ?_⟩
  · rw [Ne, happart (.fixnum 7) (.symbol ⟨7⟩) hseven hsymbol]
    decide
  · rw [Ne, happart (.symbol ⟨7⟩) (.slot 7) hsymbol hslotWord]
    decide
  · rw [Array.getElem?_eq_getElem hplace]
    exact hslots _ 7 _ (Array.getElem?_eq_getElem hplace) (by decide)

end World

end EmbeddedRuby
