import Mathlib.Logic.Relation
import EmbeddedRuby.Proofs.Growth
import EmbeddedRuby.Proofs.Superclasses

/-!
# Objects inside objects

An array is shown by showing its items, a hash by showing its keys and values, and an exception by
its message: these are the parts of their contents (`Body.parts`).  An object is **grounded** if
going from objects to their parts always comes to an end (`Heap.Grounded`).

In a fresh interpreter all objects are grounded (`Machine.boot_grounded`).  A step of the
interpreter changes the parts of one object at most, by making it or by giving it other contents
(`Machine.Step.exists_alikeOff`), and all objects stay grounded just in case no part that the object
gets leads back to it (`Machine.Step.grounded_iff`).  For `push` these parts are what is pushed
(`Heap.grounded_pushItems_iff`), and for storing in a hash the value, and the key if it is a new one
(`Machine.grounded_storeInHash_iff`).
-/

namespace EmbeddedRuby

/-- What is shown where an object with these contents is shown. -/
def Body.parts : Body → List Value
  | .array items => items
  | .hash pairs => pairs.flatMap fun pair => [pair.1, pair.2]
  | .exception message _ => [message]
  | .float _ | .bignum _ | .string _ | .ofModule _ | .plain | .proc _ => []

namespace Heap

variable {h h' : Heap} {v part : Value} {b : Body}

/-- The parts of the contents of an object. -/
def partsOf (h : Heap) (v : Value) : List Value :=
  (h.body? v).elim [] Body.parts

/-- The second object is a part of the first. -/
def Contains (h : Heap) (v part : Value) : Prop :=
  part ∈ h.partsOf v

/-- Going from the object to parts, and to parts of these, always comes to an end. -/
def Grounded (h : Heap) (v : Value) : Prop :=
  Acc (fun part whole => h.Contains whole part) v

/-- The second object is reached from the first by going to parts. -/
abbrev LeadsTo (h : Heap) : Value → Value → Prop :=
  Relation.ReflTransGen h.Contains

/-- The parts of an object are those of its contents. -/
theorem partsOf_of_body? (hb : h.body? v = some b) : h.partsOf v = b.parts := by
  unfold partsOf
  rw [hb, Option.elim_some]

/-- A part of its contents is a part of the object. -/
theorem contains_of_body? (hb : h.body? v = some b) (hpart : part ∈ b.parts) :
    h.Contains v part := by
  unfold Contains
  rwa [partsOf_of_body? hb]

/-- A part of an object is among those of its contents. -/
theorem Contains.mem_parts (hpart : h.Contains v part) (hb : h.body? v = some b) :
    part ∈ b.parts := by
  unfold Contains at hpart
  rwa [partsOf_of_body? hb] at hpart

/-- What has parts has contents. -/
theorem Contains.exists_body? (hpart : h.Contains v part) :
    ∃ b, h.body? v = some b ∧ part ∈ b.parts := by
  unfold Contains partsOf at hpart
  cases hb : h.body? v with
  | none =>
      rw [hb] at hpart
      cases hpart
  | some b =>
      rw [hb, Option.elim_some] at hpart
      exact ⟨b, rfl, hpart⟩

/-- An object is grounded if its parts are. -/
theorem grounded_of_parts (hparts : ∀ part, h.Contains v part → h.Grounded part) : h.Grounded v :=
  .intro v hparts

/-- What is not grounded has a part that is not. -/
theorem exists_part_of_not_grounded (hv : ¬ h.Grounded v) :
    ∃ part, h.Contains v part ∧ ¬ h.Grounded part := by
  apply Classical.byContradiction
  intro hnone
  refine hv (grounded_of_parts fun part hpart => ?_)
  exact Classical.byContradiction fun hpart' => hnone ⟨part, hpart, hpart'⟩

/-- No part of a grounded object leads back to it. -/
theorem Grounded.not_leadsTo (hv : h.Grounded v) :
    ∀ part, h.Contains v part → ¬ h.LeadsTo part v := by
  induction hv with
  | intro v _ ih =>
      intro part hpart hback
      rcases Relation.ReflTransGen.cases_head hback with rfl | ⟨next, hnext, hrest⟩
      · exact ih part hpart part hpart .refl
      · exact ih part hpart next hnext (hrest.tail hpart)

/-- An object that is a part of itself is not grounded. -/
theorem not_grounded_of_contains_self (hself : h.Contains v v) : ¬ h.Grounded v :=
  fun hv => hv.not_leadsTo v hself .refl

/-- What is its own one part leads to nothing else. -/
theorem LeadsTo.eq_of_contains {other : Value} (honly : ∀ part, h.Contains v part → part = v)
    (hleads : h.LeadsTo v other) : other = v := by
  induction hleads with
  | refl => rfl
  | tail _ last ih =>
      subst ih
      exact honly _ last

/-- Being grounded is a matter of parts alone. -/
theorem grounded_iff_of_partsOf (hparts : ∀ v, h'.partsOf v = h.partsOf v) (v : Value) :
    h'.Grounded v ↔ h.Grounded v := by
  have hcontains : h'.Contains = h.Contains := by
    funext v part
    unfold Contains
    rw [hparts]
  unfold Grounded
  rw [hcontains]

/-- An object without parts is grounded. -/
theorem grounded_of_partsOf (hparts : h.partsOf v = []) : h.Grounded v := by
  refine grounded_of_parts fun part hpart => ?_
  unfold Contains at hpart
  rw [hparts] at hpart
  cases hpart

/-- A new object without parts changes nothing about parts. -/
theorem partsOf_alloc (cls : Value) (hparts : b.parts = []) (v : Value) :
    (h.alloc cls b).2.partsOf v = h.partsOf v := by
  cases hbefore : h.body? v with
  | some old => rw [partsOf_of_body? (body?_alloc_of_some hbefore cls b), partsOf_of_body? hbefore]
  | none =>
      have hnone : h.partsOf v = [] := by
        unfold partsOf
        rw [hbefore, Option.elim_none]
      rw [hnone]
      cases hafter : (h.alloc cls b).2.body? v with
      | none =>
          unfold partsOf
          rw [hafter, Option.elim_none]
      | some found =>
          obtain ⟨place, slot, hplace, hget, rfl⟩ := exists_place hafter
          have hpush : (h.slots.push ⟨cls, b⟩)[place]? = some slot := hget
          rw [Array.getElem?_push] at hpush
          split at hpush
          · cases hpush
            rw [partsOf_of_body? hafter, hparts]
          · rw [body?_of_place hplace, hpush, Option.map_some] at hbefore
            cases hbefore

/-! ### Other contents for an object -/

/-- An object with other contents has their parts. -/
theorem contains_setBody_self (hv : (h.body? v).isSome = true) :
    (h.setBody v b).Contains v part ↔ part ∈ b.parts := by
  unfold Contains
  rw [partsOf_of_body? (body?_setBody_self hv b)]

/-- The contents of other objects are what they were. -/
theorem body?_alloc_of_ne {cls other : Value} (hne : other ≠ (h.alloc cls b).1) :
    (h.alloc cls b).2.body? other = h.body? other := by
  cases hother : other.slot? with
  | none =>
      unfold body? slot?
      rw [hother]
      rfl
  | some index =>
      have hplace : index ≠ h.slots.size := by
        rintro rfl
        exact hne (Value.eq_ofSlot hother)
      have hget : (h.alloc cls b).2.slots[index]? = h.slots[index]? := by
        unfold alloc
        rw [Array.getElem?_push, if_neg hplace]
      rw [body?_of_place hother, body?_of_place hother, hget]

/-! ### Other parts for one object -/

/-- No object but this one has other parts than before. -/
def AlikeOff (h h' : Heap) (v : Value) : Prop :=
  ∀ other, other ≠ v → h'.partsOf other = h.partsOf other

/-- Objects with the contents that they had have the parts that they had. -/
theorem alikeOff_of_body? (hsame : ∀ other, other ≠ v → h'.body? other = h.body? other) :
    h.AlikeOff h' v := by
  intro other hne
  unfold partsOf
  rw [hsame other hne]

/-- Other contents for one object give other parts to no other. -/
theorem alikeOff_setBody (h : Heap) (v : Value) (b : Body) : h.AlikeOff (h.setBody v b) v :=
  alikeOff_of_body? fun _ hne => body?_setBody_of_ne hne b

/-- A new object gives parts to no other. -/
theorem alikeOff_alloc (h : Heap) (cls : Value) (b : Body) :
    h.AlikeOff (h.alloc cls b).2 (h.alloc cls b).1 :=
  alikeOff_of_body? fun _ hne => body?_alloc_of_ne hne

/-- In one heap all objects have the parts that they have. -/
theorem alikeOff_refl (h : Heap) (v : Value) : h.AlikeOff h v :=
  fun _ _ => rfl

/-- An Integer gives parts to no object. -/
theorem alikeOff_ofInteger (h : Heap) (n : Int) :
    h.AlikeOff (h.ofInteger n).2 (h.ofInteger n).1 := by
  unfold ofInteger
  split
  · exact h.alikeOff_refl _
  · exact h.alikeOff_alloc _ _

/-- A module has no parts, before its change and after it. -/
theorem alikeOff_changeModule (h : Heap) (v : Value) (change : ModuleData → ModuleData) :
    h.AlikeOff (h.changeModule v change) v := by
  unfold changeModule
  split
  · exact h.alikeOff_setBody v _
  · exact h.alikeOff_refl v

namespace AlikeOff

variable {other : Value}

/-- The parts of other objects are what they were. -/
theorem contains_iff (halike : h.AlikeOff h' v) (hne : other ≠ v) :
    h'.Contains other part ↔ h.Contains other part := by
  unfold Contains
  rw [halike other hne]

/-- What leads to an object does so still when the object has other parts, for a way to it can end
where it comes to it first. -/
theorem leadsTo (halike : h.AlikeOff h' v) (hleads : h.LeadsTo other v) : h'.LeadsTo other v := by
  induction hleads using Relation.ReflTransGen.head_induction_on with
  | refl => exact .refl
  | @head other next hfirst _ ih =>
      by_cases hsame : other = v
      · subst hsame
        exact .refl
      · exact .head ((halike.contains_iff hsame).mpr hfirst) ih

/-- What does not lead to the object that is changed stays grounded. -/
theorem grounded (halike : h.AlikeOff h' v) (hother : h.Grounded other)
    (hapart : ¬ h.LeadsTo other v) : h'.Grounded other := by
  induction hother with
  | intro other _ ih =>
      have hne : other ≠ v := by
        rintro rfl
        exact hapart .refl
      refine grounded_of_parts fun part hpart => ?_
      have hbefore : h.Contains other part := (halike.contains_iff hne).mp hpart
      exact ih part hbefore fun hleads => hapart (.head hbefore hleads)

/-- **A change keeps all objects grounded if no part that the object has then leads back**, and only
then. -/
theorem grounded_iff (halike : h.AlikeOff h' v) (hall : ∀ other, h.Grounded other) :
    (∀ other, h'.Grounded other) ↔ ∀ part, h'.Contains v part → ¬ h.LeadsTo part v := by
  constructor
  · intro hafter part hpart hleads
    exact (hafter v).not_leadsTo part hpart (halike.leadsTo hleads)
  · intro hparts
    have hself : h'.Grounded v :=
      grounded_of_parts fun part hpart => halike.grounded (hall part) (hparts part hpart)
    intro other
    have hbefore := hall other
    induction hbefore with
    | intro other _ ih =>
        by_cases hsame : other = v
        · subst hsame
          exact hself
        · exact grounded_of_parts fun part hpart => ih part ((halike.contains_iff hsame).mp hpart)

/-- Only new parts matter, and it need not be said whose. -/
theorem grounded_iff_new (halike : h.AlikeOff h' v) (hall : ∀ other, h.Grounded other) :
    (∀ other, h'.Grounded other) ↔
      ∀ whole part, h'.Contains whole part → h.Contains whole part ∨ ¬ h.LeadsTo part whole := by
  rw [halike.grounded_iff hall]
  constructor
  · intro hparts whole part hpart
    by_cases hsame : whole = v
    · subst hsame
      exact .inr (hparts part hpart)
    · exact .inl ((halike.contains_iff hsame).mp hpart)
  · intro hnew part hpart
    rcases hnew v part hpart with hbefore | hapart
    · exact (hall v).not_leadsTo part hbefore
    · exact hapart

end AlikeOff

/-- All objects stay grounded if no part of the new contents leads to the object that gets them. -/
theorem grounded_setBody_iff (hall : ∀ other, h.Grounded other) (hv : (h.body? v).isSome = true) :
    (∀ other, (h.setBody v b).Grounded other) ↔ ∀ part ∈ b.parts, ¬ h.LeadsTo part v := by
  rw [(h.alikeOff_setBody v b).grounded_iff hall]
  simp only [contains_setBody_self hv]

/-- Pushing to an array gives it its items with the new ones behind them. -/
theorem pushItems_of_items {old : List Value} (hold : h.items? v = some old) (items : List Value) :
    Methods.pushItems h v items = h.setBody v (.array (old ++ items)) := by
  unfold Methods.pushItems
  rw [hold]

/-- Items can be pushed to an array if none of them leads to it. -/
theorem grounded_pushItems_iff (hall : ∀ other, h.Grounded other) {old : List Value}
    (hold : h.items? v = some old) (items : List Value) :
    (∀ other, (Methods.pushItems h v items).Grounded other) ↔
      ∀ item ∈ items, ¬ h.LeadsTo item v := by
  have hbody : h.body? v = some (.array old) := body?_of_items? hold
  have hthere : (h.body? v).isSome = true := by rw [hbody, Option.isSome_some]
  rw [pushItems_of_items hold, grounded_setBody_iff hall hthere]
  constructor
  · intro hparts item hitem
    exact hparts item (List.mem_append_right old hitem)
  · intro hitems part hpart
    rcases List.mem_append.mp hpart with hbefore | hnew
    · exact (hall v).not_leadsTo part (contains_of_body? hbody hbefore)
    · exact hitems part hnew

end Heap

namespace Machine

variable {m : Machine} {hash key value part : Value}

/-- What is a part of a hash after a pair was stored was one before, or is the value, or is a key
that was new. -/
theorem mem_parts_storePair (m : Machine) (key value : Value) (pairs : List (Value × Value)) :
    part ∈ (Body.hash (m.storePair key value pairs)).parts →
      part ∈ (Body.hash pairs).parts ∨ part = value ∨
        part = key ∧ ∀ pair ∈ pairs, m.sameKey pair.1 key = false := by
  induction pairs with
  | nil =>
      intro hpart
      simp only [storePair, Body.parts, List.flatMap_cons, List.flatMap_nil, List.append_nil,
        List.mem_cons, List.not_mem_nil, or_false] at hpart
      rcases hpart with rfl | rfl
      · exact .inr (.inr ⟨rfl, nofun⟩)
      · exact .inr (.inl rfl)
  | cons pair rest ih =>
      intro hpart
      unfold storePair at hpart
      split at hpart
      · simp only [Body.parts, List.flatMap_cons, List.mem_append, List.mem_cons,
          List.not_mem_nil, or_false] at hpart ⊢
        rcases hpart with (rfl | rfl) | hrest
        · exact .inl (.inl (.inl rfl))
        · exact .inr (.inl rfl)
        · exact .inl (.inr hrest)
      · rename_i hother
        simp only [Body.parts, List.flatMap_cons, List.mem_append, List.mem_cons,
          List.not_mem_nil, or_false] at hpart ih ⊢
        rcases hpart with hpair | hrest
        · exact .inl (.inl hpair)
        · rcases ih hrest with hrest | rfl | ⟨rfl, hnone⟩
          · exact .inl (.inr hrest)
          · exact .inr (.inl rfl)
          · refine .inr (.inr ⟨rfl, ?_⟩)
            rintro found (rfl | hfound)
            · exact Bool.eq_false_iff.mpr hother
            · exact hnone found hfound

/-- A value that was stored is a part of the hash. -/
theorem value_mem_parts_storePair (m : Machine) (key value : Value)
    (pairs : List (Value × Value)) : value ∈ (Body.hash (m.storePair key value pairs)).parts := by
  induction pairs with
  | nil => simp [storePair, Body.parts]
  | cons pair rest ih =>
      unfold storePair
      split
      · simp [Body.parts]
      · exact List.mem_append_right _ ih

/-- A key that was new to the hash is a part of it. -/
theorem key_mem_parts_storePair {pairs : List (Value × Value)}
    (hnew : ∀ pair ∈ pairs, m.sameKey pair.1 key = false) (value : Value) :
    key ∈ (Body.hash (m.storePair key value pairs)).parts := by
  induction pairs with
  | nil => simp [storePair, Body.parts]
  | cons pair rest ih =>
      have hother := hnew pair List.mem_cons_self
      unfold storePair
      rw [hother]
      have hrest := ih fun found hfound => hnew found (List.mem_cons_of_mem _ hfound)
      exact List.mem_append_right _ hrest

/-- A value can be stored in a hash if neither it leads to the hash nor the key does, where the key
is new to the hash. -/
theorem grounded_storeInHash_iff (hall : ∀ other, m.heap.Grounded other)
    {pairs : List (Value × Value)} (hpairs : m.heap.pairs? hash = some pairs) (key value : Value) :
    (∀ other, (m.storeInHash hash key value).heap.Grounded other) ↔
      ¬ m.heap.LeadsTo value hash ∧
        ((∀ pair ∈ pairs, m.sameKey pair.1 key = false) → ¬ m.heap.LeadsTo key hash) := by
  have hbody : m.heap.body? hash = some (.hash pairs) := Heap.body?_of_pairs? hpairs
  have hthere : (m.heap.body? hash).isSome = true := by rw [hbody, Option.isSome_some]
  have hstored : (m.storeInHash hash key value).heap =
      m.heap.setBody hash (.hash (m.storePair key value pairs)) := by
    unfold storeInHash
    rw [hpairs]
  rw [hstored, Heap.grounded_setBody_iff hall hthere]
  constructor
  · intro hparts
    exact ⟨hparts value (m.value_mem_parts_storePair key value pairs), fun hnew =>
      hparts key (key_mem_parts_storePair hnew value)⟩
  · rintro ⟨hvalue, hkey⟩ part hpart
    rcases m.mem_parts_storePair key value pairs hpart with hold | rfl | ⟨rfl, hnew⟩
    · exact (hall hash).not_leadsTo part (Heap.contains_of_body? hbody hold)
    · exact hvalue
    · exact hkey hnew

/-! ### Steps of the interpreter -/

/-- A step gives parts to one object at most. -/
theorem Step.exists_alikeOff {m' : Machine} (h : m.Step m') : ∃ v, m.heap.AlikeOff m'.heap v := by
  cases h with
  | string | float | array | module | «instance» => exact ⟨_, Heap.alikeOff_alloc _ _ _⟩
  | integer n => exact ⟨_, Heap.alikeOff_ofInteger m.heap n⟩
  | setConstant module | setClassVar module => exact ⟨module, Heap.alikeOff_changeModule _ _ _⟩
  | storeInHash hash key value =>
      refine ⟨hash, ?_⟩
      unfold Machine.storeInHash
      split
      · exact Heap.alikeOff_setBody _ _ _
      · exact Heap.alikeOff_refl _ _
  | pushItems array items =>
      refine ⟨array, ?_⟩
      unfold Methods.pushItems
      split
      · exact Heap.alikeOff_setBody _ _ _
      · exact Heap.alikeOff_refl _ _
  | intern | countIntern | newTarget | print => exact ⟨Value.nil, Heap.alikeOff_refl _ _⟩

/-- **A step keeps all objects grounded just in case it gives no object a part that leads back to
it.** -/
theorem Step.grounded_iff {m' : Machine} (h : m.Step m') (hall : ∀ other, m.heap.Grounded other) :
    (∀ other, m'.heap.Grounded other) ↔ ∀ whole part, m'.heap.Contains whole part →
      m.heap.Contains whole part ∨ ¬ m.heap.LeadsTo part whole := by
  obtain ⟨v, halike⟩ := h.exists_alikeOff
  exact halike.grounded_iff_new hall

/-- The objects of a fresh interpreter are its classes, and these have no parts. -/
theorem boot_grounded (v : Value) : boot.heap.Grounded v := by
  obtain ⟨heap, symbols, methods, heq, hsize, hstanding⟩ := boot_frame
  rw [heq]
  refine Heap.grounded_of_partsOf ?_
  unfold Heap.partsOf
  cases hbody : heap.body? v with
  | none => rfl
  | some contents =>
      obtain ⟨place, slot, hplace, hget, -⟩ := Heap.exists_place hbody
      have hlt : place < CoreClass.all.length := hsize ▸ (Array.getElem?_eq_some_iff.mp hget).1
      obtain ⟨c, hc⟩ : ∃ c, CoreClass.all[place]? = some c := ⟨_, List.getElem?_eq_getElem hlt⟩
      obtain rfl : v = c.value := by
        rw [Value.eq_ofSlot hplace, ← CoreClass.slot_of_getElem? hc]
        rfl
      obtain ⟨data, hdata, -⟩ := Option.map_eq_some_iff.mp (hstanding c)
      have hmodule := Heap.module?_eq_some_iff.mp hdata
      rw [hbody] at hmodule
      cases hmodule
      rfl

end Machine

end EmbeddedRuby
