import EmbeddedRuby.Proofs.KeptConstants
import EmbeddedRuby.Proofs.Objects

/-!
# Keys of hashes

A hash is a list of pairs, and which pair a key belongs to is decided by `Machine.sameKey`: two keys
are the same if they are one object, or strings of the same bytes, or integers of the same number.  No
object is both a string and an integer, so every key has one form by which it is compared
(`Heap.keyForm`), and to be the same key is to have the same form (`Machine.sameKey_iff`).  That makes
it an equivalence.

The form of a key is the same for all time, as long as the key is no forgery: a word that leads to a
slot that is not filled yet is compared by its word today and by its contents tomorrow.  `Heap.Knows`
excludes such words.  Storing in a hash changes the form of no key at all
(`Machine.sameKey_storeInHash`).

So a hash behaves as a finite map in the order in which the keys came: `Machine.lookUp_storeInHash`
says what is found after something was stored, `Machine.keys_storePair` what becomes of the keys.
-/

namespace EmbeddedRuby

/-! ### Handles -/

namespace Heap

variable {h h₁ : Heap} {v : Value}

/-- The word is no forgery: if it refers to a slot, then to one that is filled. -/
def Knows (h : Heap) (v : Value) : Prop :=
  ∀ index, v.slot? = some index → index < h.slots.size

/-- A word that refers to no slot is no forgery. -/
theorem knows_of_slot?_none (hv : v.slot? = none) (h : Heap) : h.Knows v := by
  intro index hindex
  rw [hv] at hindex
  cases hindex

/-- What refers to an object is no forgery. -/
theorem knows_of_slot? {slot : Slot} (hslot : h.slot? v = some slot) : h.Knows v := by
  obtain ⟨place, hplace, hget⟩ := Option.bind_eq_some_iff.mp hslot
  intro index hindex
  obtain rfl : place = index := Option.some.inj (hplace.symm.trans hindex)
  exact (Array.getElem?_eq_some_iff.mp hget).1

/-- What is no forgery refers to no slot, or to an object. -/
theorem Knows.cases (hv : h.Knows v) : v.slot? = none ∨ ∃ slot, h.slot? v = some slot := by
  cases hplace : v.slot? with
  | none => exact .inl rfl
  | some index =>
      have hlt : index < h.slots.size := hv index hplace
      refine .inr ⟨h.slots[index], ?_⟩
      unfold slot?
      rw [hplace, Option.bind_some, Array.getElem?_eq_getElem]

/-- Whatever is made besides is no other object than those that are known. -/
theorem Knows.slot?_alloc (hv : h.Knows v) (cls : Value) (b : Body) :
    (h.alloc cls b).2.slot? v = h.slot? v := by
  rcases hv.cases with hnone | ⟨slot, hslot⟩
  · unfold slot?
    rw [hnone]
    rfl
  · rw [hslot]
    exact slot?_alloc_of_some hslot cls b

/-- The word of a slot refers to that slot or, if there are more slots than words, to one before. -/
theorem slot?_ofSlot_le {index found : Nat} (hfound : (Value.ofSlot index).slot? = some found) :
    found ≤ index := by
  have hword : (Value.ofSlot index).word.toNat ≤ Value.heapBase + index * 8 := by
    simp only [Value.ofSlot, Value.ofWord, UInt64.toNat_ofNat']
    exact Nat.mod_le _ _
  unfold Value.slot? at hfound
  split at hfound
  · cases hfound
  · obtain rfl := Option.some.inj hfound
    omega

/-- The word of a new object is no forgery afterwards. -/
theorem knows_alloc (h : Heap) (cls : Value) (b : Body) : (h.alloc cls b).2.Knows (h.alloc cls b).1 := by
  intro index hindex
  have hle : index ≤ h.slots.size := slot?_ofSlot_le hindex
  have hsize : (h.alloc cls b).2.slots.size = h.slots.size + 1 := Array.size_push _
  omega

end Heap

/-! ### What a key is compared by -/

/-- What a key is compared by: the bytes of a string, the number of an integer, else the object. -/
inductive KeyForm where
  | text (bytes : List UInt8)
  | number (n : Int)
  | self (v : Value)
deriving DecidableEq

namespace Heap

variable {h h₁ : Heap} {v : Value}

def keyForm (h : Heap) (v : Value) : KeyForm :=
  match h.bytes? v, h.int? v with
  | some bytes, _ => .text bytes
  | none, some n => .number n
  | none, none => .self v

/-- No string is an integer. -/
theorem int?_of_bytes? {bytes : List UInt8} (hbytes : h.bytes? v = some bytes) :
    h.int? v = none := by
  have hbody := body?_of_bytes? hbytes
  obtain ⟨index, hindex⟩ := slot?_of_body? hbody
  unfold int?
  rw [Value.fixnum?_of_slot? hindex, hbody]

/-- The form of a key depends only on the contents of the key, and not on the items and pairs in it. -/
theorem keyForm_congr (hbytes : h₁.bytes? v = h.bytes? v)
    (hint : h₁.int? v = h.int? v) : h₁.keyForm v = h.keyForm v := by
  unfold keyForm
  rw [hbytes, hint]

/-- A key with the contents that it had is compared by what it was compared by. -/
theorem keyForm_of_body? (hbody : h₁.body? v = h.body? v) : h₁.keyForm v = h.keyForm v := by
  apply keyForm_congr
  · unfold bytes?
    rw [hbody]
  · unfold int?
    rw [hbody]

/-- A symbol is compared by itself. -/
theorem keyForm_of_symbol? {id : SymbolId} (hv : v.symbol? = some id) (h : Heap) :
    h.keyForm v = .self v := by
  have hword : v.word.toNat % 256 = 0x0c := (Option.ite_none_right_eq_some.mp hv).1
  have hbody : h.body? v = none := by
    unfold body? slot? Value.slot?
    rw [if_pos (.inr (by omega))]
    rfl
  have hodd : v.fixnum? = none := by
    unfold Value.fixnum?
    rw [if_neg (by omega)]
  unfold keyForm bytes? int?
  rw [hbody, hodd]

/-- An integer in a word is compared by its number. -/
theorem keyForm_of_fixnum? {n : Int} (hv : v.fixnum? = some n) (h : Heap) :
    h.keyForm v = .number n := by
  have hbytes : h.bytes? v = none := by
    cases hbytes : h.bytes? v with
    | none => rfl
    | some bytes =>
        obtain ⟨index, hindex⟩ := slot?_of_body? (body?_of_bytes? hbytes)
        rw [Value.fixnum?_of_slot? hindex] at hv
        cases hv
  unfold keyForm int?
  rw [hbytes, hv]

/-- A key that is no forgery keeps its form, whatever becomes of the objects. -/
theorem Evolves.keyForm (hevolves : h.Evolves h₁) (hv : h.Knows v) :
    h₁.keyForm v = h.keyForm v := by
  rcases hv.cases with hnone | ⟨slot, hslot⟩
  · apply keyForm_of_body?
    unfold Heap.body? Heap.slot?
    rw [hnone]
    rfl
  · have hbody := body?_of_slot? hslot
    obtain ⟨body', hbody', hbecomes⟩ := hevolves.body? hbody
    generalize slot.body = body at hbody hbecomes
    -- Strings and integers stay what they are, and what is neither does not become one of them.
    apply keyForm_congr
    · unfold bytes?
      rw [hbody, hbody']
      cases hbecomes <;> rfl
    · unfold int?
      rw [hbody, hbody']
      cases hbecomes <;> rfl

end Heap

namespace Machine

variable {m : Machine} {hash key value a b c : Value} {pairs : List (Value × Value)}

/-- Keys are the same if they have the same form. -/
theorem sameKey_iff : m.sameKey a b = true ↔ m.heap.keyForm a = m.heap.keyForm b := by
  unfold sameKey
  by_cases hab : a = b
  · simp [hab]
  · rw [if_neg hab]
    unfold Heap.keyForm
    cases ha : m.heap.bytes? a with
    | some textA =>
        cases hb : m.heap.bytes? b with
        | some textB => simp
        | none =>
            rw [Heap.int?_of_bytes? ha]
            cases m.heap.int? b <;> simp
    | none =>
        cases hb : m.heap.bytes? b with
        | some textB =>
            rw [Heap.int?_of_bytes? hb]
            cases m.heap.int? a <;> simp
        | none => cases m.heap.int? a <;> cases m.heap.int? b <;> simp [hab]

/-- Whether two keys are the same is decided by their forms. -/
theorem sameKey_eq (m : Machine) (a b : Value) :
    m.sameKey a b = decide (m.heap.keyForm a = m.heap.keyForm b) := by
  rw [Bool.eq_iff_iff, decide_eq_true_iff]
  exact sameKey_iff

/-- Keys of different forms are different. -/
theorem sameKey_eq_false_iff : m.sameKey a b = false ↔ m.heap.keyForm a ≠ m.heap.keyForm b := by
  rw [sameKey_eq, decide_eq_false_iff_not]

/-- Keys are the same if they are one object, strings of the same bytes or integers of the same
number. -/
theorem sameKey_iff_cases :
    m.sameKey a b = true ↔ a = b ∨
      (∃ bytes, m.heap.bytes? a = some bytes ∧ m.heap.bytes? b = some bytes) ∨
      ∃ n, m.heap.int? a = some n ∧ m.heap.int? b = some n := by
  constructor
  · intro hsame
    rw [sameKey_iff] at hsame
    unfold Heap.keyForm at hsame
    cases ha : m.heap.bytes? a <;> cases hb : m.heap.bytes? b <;> cases hna : m.heap.int? a <;>
      cases hnb : m.heap.int? b <;> simp_all
  · rintro (rfl | ⟨bytes, ha, hb⟩ | ⟨n, ha, hb⟩)
    · exact sameKey_iff.mpr rfl
    · rw [sameKey_iff]
      unfold Heap.keyForm
      rw [ha, hb]
    · have hnone : ∀ v, m.heap.int? v = some n → m.heap.bytes? v = none := by
        intro v hv
        cases hbytes : m.heap.bytes? v with
        | none => rfl
        | some bytes =>
            rw [Heap.int?_of_bytes? hbytes] at hv
            cases hv
      rw [sameKey_iff]
      unfold Heap.keyForm
      rw [hnone a ha, hnone b hb, ha, hb]

/-- To be the same key is an equivalence. -/
theorem sameKey_equivalence (m : Machine) : Equivalence fun a b => m.sameKey a b = true where
  refl _ := sameKey_iff.mpr rfl
  symm hab := sameKey_iff.mpr (sameKey_iff.mp hab).symm
  trans hab hbc := sameKey_iff.mpr ((sameKey_iff.mp hab).trans (sameKey_iff.mp hbc))

/-- The same keys are the same as the same other keys. -/
theorem sameKey_congr (hab : m.sameKey a b = true) (c : Value) : m.sameKey a c = m.sameKey b c := by
  rw [sameKey_eq, sameKey_eq, sameKey_iff.mp hab]

/-! ### Pairs -/

/-- Is the key, or one that is the same, among the keys of the pairs? -/
def holdsKey (m : Machine) (key : Value) (pairs : List (Value × Value)) : Bool :=
  pairs.any fun pair => m.sameKey pair.1 key

/-- No two keys are the same. -/
def DistinctKeys (m : Machine) (pairs : List (Value × Value)) : Prop :=
  pairs.Pairwise fun pair other => m.sameKey pair.1 other.1 = false

/-- A key is among some pairs if it is that of the first, or among the others. -/
theorem holdsKey_cons (pair : Value × Value) (rest : List (Value × Value)) :
    m.holdsKey key (pair :: rest) = (m.sameKey pair.1 key || m.holdsKey key rest) :=
  List.any_cons

/-- A new key comes at the end. -/
theorem storePair_of_absent (habsent : m.holdsKey key pairs = false) (value : Value) :
    m.storePair key value pairs = pairs ++ [(key, value)] := by
  induction pairs with
  | nil => rfl
  | cons pair rest ih =>
      rw [holdsKey_cons, Bool.or_eq_false_iff] at habsent
      rw [storePair, if_neg (by simp [habsent.1]), ih habsent.2, List.cons_append]

/-- What is stored leaves the other keys in their order, and a key that is there in its place. -/
theorem keys_storePair (m : Machine) (key value : Value) (pairs : List (Value × Value)) :
    (m.storePair key value pairs).map Prod.fst =
      if m.holdsKey key pairs = true then pairs.map Prod.fst else pairs.map Prod.fst ++ [key] := by
  induction pairs with
  | nil => rfl
  | cons pair rest ih =>
      rw [holdsKey_cons]
      by_cases hsame : m.sameKey pair.1 key = true
      · rw [storePair, if_pos hsame, hsame, Bool.true_or, if_pos rfl]
        rfl
      · rw [storePair, if_neg hsame, List.map_cons, ih, eq_false_of_ne_true hsame,
          Bool.false_or]
        split <;> rfl

/-- There is one pair more if the key is new. -/
theorem length_storePair (m : Machine) (key value : Value) (pairs : List (Value × Value)) :
    (m.storePair key value pairs).length =
      pairs.length + if m.holdsKey key pairs = true then 0 else 1 := by
  have hkeys := congrArg List.length (m.keys_storePair key value pairs)
  rw [List.length_map] at hkeys
  rw [hkeys]
  split
  · rw [List.length_map, Nat.add_zero]
  · rw [List.length_append, List.length_map, List.length_singleton]

/-- The value that is found for a key is the one that was stored under the same key, or else the one
that was found before. -/
theorem find?_storePair (m : Machine) (key value other : Value) (pairs : List (Value × Value)) :
    ((m.storePair key value pairs).find? fun pair => m.sameKey pair.1 other).map Prod.snd =
      if m.sameKey key other = true then some value
      else (pairs.find? fun pair => m.sameKey pair.1 other).map Prod.snd := by
  induction pairs with
  | nil =>
      rw [storePair, List.find?_cons]
      cases m.sameKey key other <;> rfl
  | cons pair rest ih =>
      by_cases hsame : m.sameKey pair.1 key = true
      · rw [storePair, if_pos hsame, List.find?_cons, List.find?_cons]
        dsimp only
        rw [sameKey_congr hsame other]
        cases m.sameKey key other <;> rfl
      · rw [storePair, if_neg hsame, List.find?_cons, List.find?_cons]
        dsimp only
        by_cases hother : m.sameKey pair.1 other = true
        · have hdiffers : m.sameKey key other ≠ true := by
            intro hkey
            exact hsame (m.sameKey_equivalence.trans hother (m.sameKey_equivalence.symm hkey))
          rw [hother, if_neg hdiffers]
        · rw [eq_false_of_ne_true hother]
          exact ih

/-- Where no two keys are the same, they are not after something was stored. -/
theorem DistinctKeys.storePair (hpairs : m.DistinctKeys pairs) (key value : Value) :
    m.DistinctKeys (m.storePair key value pairs) := by
  have hmap : ∀ pairs : List (Value × Value), m.DistinctKeys pairs ↔
      (pairs.map Prod.fst).Pairwise fun a b => m.sameKey a b = false := by
    intro pairs
    rw [List.pairwise_map]
    rfl
  rw [hmap, keys_storePair]
  rw [hmap] at hpairs
  split
  · exact hpairs
  · rename_i habsent
    refine List.pairwise_append.mpr ⟨hpairs, List.pairwise_singleton _ _, ?_⟩
    intro a ha b hb
    obtain rfl := List.mem_singleton.mp hb
    obtain ⟨pair, hpair, rfl⟩ := List.mem_map.mp ha
    unfold holdsKey at habsent
    rw [Bool.not_eq_true, List.any_eq_false] at habsent
    exact eq_false_of_ne_true (habsent pair hpair)

end Machine

/-! ### Hashes -/

namespace Heap

variable {h : Heap} {v hash cls : Value} {pairs : List (Value × Value)} {b : Body}

/-- Other pairs for a hash change no key. -/
theorem keyForm_setBody (hpairs : h.pairs? hash = some pairs) (other : List (Value × Value)) (v : Value) :
    (h.setBody hash (.hash other)).keyForm v = h.keyForm v := by
  by_cases hv : v = hash
  · have hbody := body?_of_pairs? hpairs
    have hbody' : (h.setBody hash (.hash other)).body? hash = some (.hash other) :=
      body?_setBody_self (by rw [hbody, Option.isSome_some]) _
    rw [hv]
    apply keyForm_congr
    · unfold bytes?
      rw [hbody, hbody']
    · unfold int?
      rw [hbody, hbody']
  · exact keyForm_of_body? (body?_setBody_of_ne hv _)

/-- A new object that is given other contents might have been made with these. -/
theorem setBody_alloc (hroom : h.Addressable) (cls : Value) (b new : Body) :
    (h.alloc cls b).2.setBody (h.alloc cls b).1 new = (h.alloc cls new).2 := by
  have hplace : (h.alloc cls b).1.slot? = some h.slots.size := Value.slot?_ofSlot hroom
  unfold setBody
  rw [hplace]
  simp only [alloc]
  congr 1
  refine Array.ext_getElem? fun index => ?_
  rw [Array.getElem?_modify, Array.getElem?_push, Array.getElem?_push]
  by_cases hlast : index = h.slots.size
  · rw [if_pos hlast, if_pos hlast, if_pos hlast.symm]
    rfl
  · rw [if_neg hlast, if_neg hlast, if_neg (Ne.symm hlast)]

end Heap

namespace Machine

variable {m : Machine} {hash key value other a b : Value} {pairs : List (Value × Value)}

/-- Storing in a hash gives it other pairs, and nothing else changes. -/
theorem storeInHash_eq (hpairs : m.heap.pairs? hash = some pairs) (key value : Value) :
    m.storeInHash hash key value =
      { m with heap := m.heap.setBody hash (.hash (m.storePair key value pairs)) } := by
  unfold storeInHash
  rw [hpairs]

/-- These are its pairs with the new one stored among them. -/
theorem pairs?_storeInHash (hpairs : m.heap.pairs? hash = some pairs) (key value : Value) :
    (m.storeInHash hash key value).heap.pairs? hash = some (m.storePair key value pairs) := by
  rw [storeInHash_eq hpairs]
  refine Heap.pairs?_of_body? (Heap.body?_setBody_self ?_ _)
  rw [Heap.body?_of_pairs? hpairs, Option.isSome_some]

/-- Storing in a hash leaves all other objects as they are. -/
theorem slot?_storeInHash (hpairs : m.heap.pairs? hash = some pairs) (key value : Value)
    (hother : other ≠ hash) : (m.storeInHash hash key value).heap.slot? other = m.heap.slot? other := by
  rw [storeInHash_eq hpairs]
  exact Heap.slot?_setBody_of_ne hother _

/-- Storing in a hash changes no key. -/
theorem sameKey_storeInHash (hpairs : m.heap.pairs? hash = some pairs) (key value a b : Value) :
    (m.storeInHash hash key value).sameKey a b = m.sameKey a b := by
  rw [sameKey_eq, sameKey_eq, storeInHash_eq hpairs]
  dsimp only
  rw [Heap.keyForm_setBody hpairs, Heap.keyForm_setBody hpairs]

/-- What is found in a hash under a key is what was stored under the same key, or else what was found
before. -/
theorem lookUp_storeInHash (hpairs : m.heap.pairs? hash = some pairs) (key value other : Value) :
    (m.storeInHash hash key value).lookUpInHash hash other =
      if m.sameKey key other = true then some value else m.lookUpInHash hash other := by
  have hsame : (m.storeInHash hash key value).sameKey = m.sameKey := by
    funext a b
    exact sameKey_storeInHash hpairs key value a b
  unfold lookUpInHash
  rw [pairs?_storeInHash hpairs, hpairs, hsame, Option.getD_some, Option.getD_some]
  exact m.find?_storePair key value other pairs

/-- A hash that is made of pairs with distinct keys has just these pairs. -/
theorem make_hash (hroom : m.heap.Addressable)
    (hdistinct : (m.alloc CoreClass.hash.value (.hash [])).2.DistinctKeys pairs) :
    m.make (.hash pairs) = m.alloc CoreClass.hash.value (.hash pairs) := by
  let hash := (m.heap.alloc CoreClass.hash.value (.hash [])).1
  let made : List (Value × Value) → Machine := fun done =>
    (m.alloc CoreClass.hash.value (.hash done)).2
  have hpairs : ∀ done, (made done).heap.pairs? hash = some done := fun done =>
    Heap.pairs?_of_body? (Heap.body?_alloc hroom CoreClass.hash.value (.hash done))
  have hother : ∀ done, (made done).heap = (made []).heap.setBody hash (.hash done) := fun done =>
    (Heap.setBody_alloc hroom CoreClass.hash.value (.hash []) (.hash done)).symm
  have hsame : ∀ done a b, (made done).sameKey a b = (made []).sameKey a b := by
    intro done a b
    rw [sameKey_eq, sameKey_eq, hother, Heap.keyForm_setBody (hpairs []),
      Heap.keyForm_setBody (hpairs [])]
  -- The pairs are stored one after another, each behind those that are done.
  have hfold : ∀ rest done, (made []).DistinctKeys (done ++ rest) →
      rest.foldl (fun m pair => m.storeInHash hash pair.1 pair.2) (made done) =
        made (done ++ rest) := by
    intro rest
    induction rest with
    | nil =>
        intro done _
        rw [List.append_nil]
        rfl
    | cons pair rest ih =>
        intro done hdone
        have habsent : (made done).holdsKey pair.1 done = false := by
          refine List.any_eq_false.mpr fun earlier hearlier => ?_
          have hapart := (List.pairwise_append.mp hdone).2.2 earlier hearlier pair List.mem_cons_self
          rw [hsame, hapart]
          exact Bool.false_ne_true
        have hstored : (made done).storeInHash hash pair.1 pair.2 = made (done ++ [pair]) := by
          rw [storeInHash_eq (hpairs done), storePair_of_absent habsent]
          exact congrArg (fun heap => { m with heap })
            (Heap.setBody_alloc hroom CoreClass.hash.value (.hash done) _)
        rw [List.foldl_cons, hstored]
        have hsplit : done ++ pair :: rest = done ++ [pair] ++ rest := by
          rw [List.append_assoc, List.singleton_append]
        rw [hsplit] at hdone ⊢
        exact ih (done ++ [pair]) hdone
  exact congrArg (Prod.mk hash) (hfold pairs [] hdistinct)

/-- A hash that is made of pairs with distinct keys has just these pairs. -/
theorem pairs?_make (hroom : m.heap.Addressable)
    (hdistinct : (m.alloc CoreClass.hash.value (.hash [])).2.DistinctKeys pairs) :
    (m.make (.hash pairs)).2.heap.pairs? (m.make (.hash pairs)).1 = some pairs := by
  rw [make_hash hroom hdistinct]
  exact Heap.pairs?_of_body? (Heap.body?_alloc hroom CoreClass.hash.value (.hash pairs))

end Machine

/-! ### The methods of hashes -/

section Methods

open Eval

variable {σ : Type} {w : World σ} {hash key value : Value} {pairs : List (Value × Value)}

/-- An argument is found by its place, and `nil` where there is none. -/
theorem Call.arg_of_args {call : Call σ} {args : List Value} (hargs : call.args = args) (index : Nat) :
    call.arg index = (args[index]?).getD Value.nil := by
  unfold Call.arg
  rw [hargs]

/-- Storing in a hash does that and nothing else. -/
theorem storeInHash_apply (hpairs : w.machine.heap.pairs? hash = some pairs) (key value : Value) :
    storeInHash hash key value w = .ok () (w.onMachine fun m => m.storeInHash hash key value) := by
  have hkind : w.machine.heap.typeOf hash = .hash :=
    Heap.typeOf_of_body? (Heap.body?_of_pairs? hpairs)
  unfold Eval.storeInHash
  rw [machine_bind_apply, if_pos hkind]
  rfl

/-- The method `[]=` stores its second argument under its first, and gives it back. -/
theorem hashSet_run_apply (r : Reentry σ) {call : Call σ} (hargs : call.args = [key, value])
    (w : World σ) :
    Builtin.hashSet.run r call w =
      (storeInHash call.receiver key value >>= fun _ => pure value : Eval σ Value) w := by
  have hcount : call.args.length = 2 := congrArg List.length hargs
  have hkey : call.arg 0 = key := Call.arg_of_args hargs 0
  have hvalue : call.arg 1 = value := Call.arg_of_args hargs 1
  unfold Builtin.run Methods.hashSet
  dsimp only
  rw [checkArity_bind_apply (Nat.le_of_eq hcount.symm) (Nat.le_of_eq hcount), hkey, hvalue]

/-- The method by which a program stores answers with the value it has stored. -/
theorem hashSet_apply (r : Reentry σ) {call : Call σ}
    (hpairs : w.machine.heap.pairs? call.receiver = some pairs) (hargs : call.args = [key, value]) :
    Builtin.hashSet.run r call w =
      .ok value (w.onMachine fun m => m.storeInHash call.receiver key value) := by
  rw [hashSet_run_apply r hargs, bind_apply, storeInHash_apply hpairs]
  rfl

end Methods

end EmbeddedRuby
