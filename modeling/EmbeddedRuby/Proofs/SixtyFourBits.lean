import EmbeddedRuby.Proofs.Objects
import EmbeddedRuby.Proofs.Surfacing
import EmbeddedRuby.Vm.Run

/-!
# Reading numbers of 64 bits

The host reads an object as a number of 64 bits, with a sign (`Vm.toSigned`) or without one
(`Vm.toUnsigned`).  Several layers take part: the object is coerced to a number, by `Integer()` if
it is no number yet; the sign is looked at; and the number is taken out of its object, by a
conversion which by itself would wrap negative numbers.

The main statement is `reads_of_64_bits`.  It says that all layers together neither wrap nor
saturate: a number is given exactly if the object comes to an integer in the range of the type, or
to a float whose integer part is, and then it is that number; everything else is surfaced, as an
error unless a panic of the host's waits (`Fails`).  On the way, the loop that coerces an object is
seen to call `Integer()` once at most (`coerce_eq_coerced`).
-/

namespace EmbeddedRuby

open Integer (longMin longEnd unsignedEnd minValue maxValue)

/-! ### The numbers that are given -/

namespace Number

/-- The number without sign that a number is read as, if there is one. -/
def toUnsigned? : Number → Option Nat
  | int n => if 0 ≤ n ∧ n < unsignedEnd then some n.toNat else none
  | float x =>
    match x.value? with
    | some q => if 0 ≤ q ∧ q < unsignedEnd then some (Double.integerPart q).toNat else none
    | none => none

end Number

namespace Double

/-- The zero that signs are told by. -/
theorem value?_zero : (zero false).value? = some 0 := by
  decide +kernel

/-- A finite number is told from zero as its value is. -/
theorem compare?_zero {x : Double} {q : Rat} (hq : x.value? = some q) :
    x.compare? (zero false) = some (if q < 0 then .lt else if q = 0 then .eq else .gt) := by
  have hz : (zero false).unpack = .finite false 0 (-1074) := by decide +kernel
  unfold compare?
  rw [hz, value?_zero, hq]
  unfold value? at hq
  cases hu : x.unpack with
  | finite s m e => rfl
  | nan => simp [hu] at hq
  | infinite s => simp [hu] at hq

/-- The integer part of a number that is not negative is its floor. -/
theorem integerPart_of_nonneg {q : Rat} (hq : 0 ≤ q) : integerPart q = q.floor := by
  have hnum : 0 ≤ q.num := Rat.num_nonneg.mpr hq
  unfold integerPart
  rw [Int.tdiv_eq_ediv_of_nonneg hnum, Rat.floor_def]

/-- The integer part of a number that is not negative is not negative, and below every integer that
the number is below. -/
theorem integerPart_range {q : Rat} (hq : 0 ≤ q) {bound : Int} (hbound : q < bound) :
    0 ≤ integerPart q ∧ integerPart q < bound := by
  rw [integerPart_of_nonneg hq]
  exact ⟨Rat.le_floor_iff.mpr hq, Rat.floor_lt_iff.mpr hbound⟩

end Double

namespace Reentry

open Eval

variable {σ : Type} (r : Reentry σ)

/-- What an object is coerced to: a number or nil to itself, anything else to the integer that
`Integer()` makes of it, which is called once. -/
def coerced (v : Value) : Eval σ Value := do
  match (← machine).heap.typeOf v with
  | .fixnum | .float | .bignum | .nil => return v
  | _ => r.toInteger v

/-- What an object was converted to for `Integer()` is an integer. -/
theorem isInteger_of_convertBy {v k : Value} {methods : List String} {w w' : World σ}
    (h : r.convertBy v methods "Integer" (fun type => type = .fixnum || type = .bignum) w =
      .ok k w') :
    w'.machine.heap.IsInteger k := by
  unfold convertBy at h
  simp only [machine_bind_apply] at h
  obtain ⟨method, w₁, _, h⟩ := bind_ok_iff.mp h
  cases method with
  | none => exact absurd h raise_ne_ok
  | some name =>
      obtain ⟨converted, w₂, _, h⟩ := bind_ok_iff.mp h
      simp only [machine_bind_apply] at h
      split at h
      · rename_i haccepted
        cases h
        simpa [Heap.IsInteger] using haccepted
      · exact absurd h raise_ne_ok

/-- `Integer()` gives nothing but integers. -/
theorem isInteger_of_toInteger {v k : Value} {w w' : World σ}
    (hroom : w.machine.heap.Addressable) (h : r.toInteger v w = .ok k w') :
    w'.machine.heap.IsInteger k := by
  unfold toInteger at h
  simp only [machine_bind_apply] at h
  cases htype : w.machine.heap.typeOf v with
  | fixnum =>
      rw [htype] at h
      cases h
      exact .inl htype
  | bignum =>
      rw [htype] at h
      cases h
      exact .inr htype
  | float =>
      rw [htype] at h
      unfold integerPart at h
      cases hn : ((w.machine.heap.float? v).getD (Double.zero false)).truncate? with
      | some n =>
          rw [hn] at h
          cases h
          exact (Machine.newInteger_spec _ _ hroom).1
      | none =>
          rw [hn] at h
          exact absurd h raise_ne_ok
  | string =>
      rw [htype] at h
      simp only at h
      cases hn : Integer.parse? (Utf8.decodeLossy ((w.machine.heap.bytes? v).getD [])) with
      | some n =>
          rw [hn] at h
          cases h
          exact (Machine.newInteger_spec _ _ hroom).1
      | none =>
          rw [hn] at h
          exact absurd h raise_ne_ok
  | nil =>
      rw [htype] at h
      exact absurd h raise_ne_ok
  | _ =>
      rw [htype] at h
      exact isInteger_of_convertBy r h

/-- **One conversion at most.**  The loop that coerces an object ends in its first round or in its
second, so it calls `Integer()` once at most. -/
theorem coerce_eq_coerced {v : Value} {w : World σ} {rounds : Nat}
    (hroom : w.machine.heap.Addressable) :
    r.coerce (rounds + 2) v w = r.coerced v w := by
  -- A round that is given an integer stops.
  have hdone : ∀ {k : Value} {w' : World σ}, w'.machine.heap.IsInteger k →
      r.coerce (rounds + 1) k w' = .ok k w' := by
    intro k w' hk
    unfold coerce
    simp only [machine_bind_apply]
    rcases hk with hk | hk <;> rw [hk] <;> rfl
  unfold coerced
  rw [coerce]
  simp only [machine_bind_apply]
  cases w.machine.heap.typeOf v with
  | fixnum | float | bignum | nil => rfl
  | _ =>
      simp only [bind_apply]
      cases hint : r.toInteger v w with
      | ok k w' => exact hdone (isInteger_of_toInteger r hroom hint)
      | error exit w' => rfl

/-! ### Numbers without sign -/

/-- Taking a number without sign out of what an object was coerced to. -/
def unsignedOf (k : Value) : Eval σ Nat := do
  if isNegativeNumber (← machine) k then raise .negativeUnsigned
  else r.toUnsignedLong k

/-- An Integer is negative if its number is. -/
theorem isNegativeNumber_of_int {m : Machine} {k : Value} {n : Int} (hk : m.heap.IsInteger k)
    (hn : m.heap.int? k = some n) : isNegativeNumber m k = decide (n < 0) := by
  unfold isNegativeNumber
  rcases hk with hk | hk
  · have hbits : m.heap.int? k = some k.fixnumBits := by
      simp [Heap.int?, Heap.fixnum?_of_typeOf hk]
    obtain rfl : k.fixnumBits = n := Option.some.inj (hbits.symm.trans hn)
    simp [hk]
  · simp [hk, hn]

/-- A Float is negative if it is below zero. -/
theorem isNegativeNumber_of_float {m : Machine} {k : Value} {x : Double}
    (hx : m.heap.float? k = some x) :
    isNegativeNumber m k = (x.compare? (Double.zero false) == some .lt) := by
  unfold isNegativeNumber
  simp [Heap.typeOf_of_float? hx, hx]

/-- Taking a number out of an object gives a number, or raises if there is none to give. -/
def Takes {α : Type} (take : Eval σ α) (number? : Option α) (w : World σ) : Prop :=
  match number? with
  | some n => take w = .ok n w
  | none => ∃ fault, take w = raise fault w

/-- The number of an Integer is had at once. -/
theorem numberOf_of_int? {k : Value} {n : Int} {w : World σ}
    (hn : w.machine.heap.int? k = some n) : r.numberOf k w = .ok (.inl n) w := by
  unfold numberOf
  simp [hn]

/-- The number of a Float is had at once. -/
theorem numberOf_of_float? {k : Value} {x : Double} {w : World σ}
    (hx : w.machine.heap.float? k = some x) (hn : w.machine.heap.int? k = none) :
    r.numberOf k w = .ok (.inr x) w := by
  unfold numberOf
  simp [hn, hx]

/-- An integer in the range comes out as it is, any other is refused. -/
theorem unsignedOf_takes_int {k : Value} {n : Int} {w : World σ}
    (hk : w.machine.heap.IsInteger k) (hn : w.machine.heap.int? k = some n) :
    Takes (r.unsignedOf k) (Number.int n).toUnsigned? w := by
  have hlong : r.toUnsignedLong k w =
      if longMin ≤ n ∧ n < unsignedEnd then .ok (n % unsignedEnd).toNat w
      else raise .bignumBeyondUnsigned w := by
    unfold toUnsignedLong
    simp only [bind_apply, r.numberOf_of_int? hn]
    split <;> rfl
  unfold Takes unsignedOf Number.toUnsigned?
  simp only [machine_bind_apply, isNegativeNumber_of_int hk hn]
  by_cases hneg : n < 0
  · rw [if_neg (by omega)]
    exact ⟨.negativeUnsigned, by simp [hneg]⟩
  · have hlow : longMin ≤ n := by
      unfold longMin
      omega
    simp only [hneg, decide_false, Bool.false_eq_true, if_false, hlong]
    by_cases hhigh : n < unsignedEnd
    · rw [if_pos ⟨by omega, hhigh⟩, if_pos ⟨hlow, hhigh⟩, Int.emod_eq_of_lt (by omega) hhigh]
    · rw [if_neg (by omega)]
      exact ⟨.bignumBeyondUnsigned, by rw [if_neg (by omega)]⟩

/-- A finite float in the range comes out as its integer part, any other float is refused. -/
theorem unsignedOf_takes_float {k : Value} {x : Double} {w : World σ}
    (hx : w.machine.heap.float? k = some x) (hn : w.machine.heap.int? k = none) :
    Takes (r.unsignedOf k) (Number.float x).toUnsigned? w := by
  unfold Takes unsignedOf Number.toUnsigned?
  simp only [machine_bind_apply, isNegativeNumber_of_float hx]
  cases hq : x.value? with
  | none =>
      have hlong : r.toUnsignedLong k w = raise (.floatBeyondInteger x.text) w := by
        unfold toUnsignedLong
        simp only [bind_apply, r.numberOf_of_float? hx hn, hq]
      cases x.compare? (Double.zero false) == some .lt with
      | true => exact ⟨.negativeUnsigned, rfl⟩
      | false => exact ⟨.floatBeyondInteger x.text, hlong⟩
  | some q =>
      have hlong : r.toUnsignedLong k w =
          if longMin < q ∧ q < unsignedEnd then
            .ok (Double.integerPart q % unsignedEnd).toNat w
          else raise (.floatBeyondInteger x.text) w := by
        unfold toUnsignedLong
        simp only [bind_apply, r.numberOf_of_float? hx hn, hq]
        split <;> rfl
      simp only [Double.compare?_zero hq]
      by_cases hneg : q < 0
      · rw [if_neg (by grind), if_pos hneg]
        exact ⟨.negativeUnsigned, rfl⟩
      · have hzero : 0 ≤ q := by grind
        have hlow : (longMin : Rat) < q := by
          have : (longMin : Rat) < 0 := by decide +kernel
          grind
        have hsign : (some (if q < 0 then Ordering.lt else if q = 0 then .eq else .gt) ==
            some .lt) = false := by
          rw [if_neg hneg]
          split <;> rfl
        rw [hsign]
        simp only [Bool.false_eq_true, if_false, hlong]
        by_cases hhigh : q < unsignedEnd
        · obtain ⟨hpart, hbound⟩ := Double.integerPart_range hzero hhigh
          rw [if_pos ⟨hzero, hhigh⟩, if_pos ⟨hlow, hhigh⟩, Int.emod_eq_of_lt hpart hbound]
        · rw [if_neg (by grind)]
          exact ⟨.floatBeyondInteger x.text, by rw [if_neg (by grind)]⟩

/-- What an object is coerced to is nil or a number. -/
theorem kind_of_coerced {v k : Value} {w w' : World σ} (hroom : w.machine.heap.Addressable)
    (h : r.coerced v w = .ok k w') :
    w'.machine.heap.typeOf k = .nil ∨ w'.machine.heap.typeOf k = .float ∨
      w'.machine.heap.IsInteger k := by
  unfold coerced at h
  simp only [machine_bind_apply] at h
  cases htype : w.machine.heap.typeOf v with
  | nil | float | fixnum | bignum =>
      rw [htype] at h
      cases h
      simp [Heap.IsInteger, htype]
  | _ =>
      rw [htype] at h
      exact .inr (.inr (isInteger_of_toInteger r hroom h))

/-- Of what an object was coerced to, exactly the numbers in the range come out. -/
theorem unsignedOf_takes {v k : Value} {w w' : World σ} (hroom : w.machine.heap.Addressable)
    (h : r.coerced v w = .ok k w') :
    Takes (r.unsignedOf k) ((Number.of? w'.machine.heap k).bind Number.toUnsigned?) w' := by
  rcases kind_of_coerced r hroom h with hk | hk | hk
  · obtain rfl := Heap.eq_nil_of_typeOf hk
    have hnone : Number.of? w'.machine.heap Value.nil = none := by
      simp [Number.of?]
    rw [hnone]
    refine ⟨.nilToInteger, ?_⟩
    have hsign : isNegativeNumber w'.machine Value.nil = false := by
      simp [isNegativeNumber, hk]
    have hnumber : r.numberOf Value.nil w' = raise .nilToInteger w' := by
      unfold numberOf refuseInteger
      simp [hk]
    unfold unsignedOf toUnsignedLong
    rw [machine_bind_apply, hsign]
    simp only [Bool.false_eq_true, if_false, bind_apply, hnumber]
    rfl
  · obtain ⟨x, hx, hn⟩ := Heap.exists_float?_of_typeOf hk
    have hnumber : Number.of? w'.machine.heap k = some (.float x) := by
      simp [Number.of?, hn, hx]
    rw [hnumber]
    exact unsignedOf_takes_float r hx hn
  · obtain ⟨n, hn⟩ := hk.exists_int?
    have hnumber : Number.of? w'.machine.heap k = some (.int n) := by
      simp [Number.of?, hn]
    rw [hnumber]
    exact unsignedOf_takes_int r hk hn

/-! ### Numbers with sign -/

/-- An integer in the range comes out as it is, any other is refused. -/
theorem toLong_takes {k : Value} {n : Int} {w : World σ} (hn : w.machine.heap.int? k = some n) :
    Takes (r.toLong k) (if longMin ≤ n ∧ n < longEnd then some n else none) w := by
  unfold Takes toLong
  simp only [bind_apply, r.numberOf_of_int? hn]
  by_cases hrange : longMin ≤ n ∧ n < longEnd
  · simp [hrange]
  · simp only [hrange, if_false]
    exact ⟨.bignumBeyondLong, rfl⟩

/-- An integer is in the range exactly if the nearest integer that the interpreter holds is, and
then it is that one. -/
theorem saturate_in_range_iff {n k : Int} :
    (Integer.saturate n = k ∧ longMin ≤ k ∧ k < longEnd) ↔ n = k ∧ longMin ≤ k ∧ k < longEnd := by
  unfold Integer.saturate minValue maxValue longMin longEnd
  omega

/-- Reading without sign is coercing and then taking the number out. -/
theorem toUnsigned_apply {v : Value} {w : World σ} (hrounds : 2 ≤ r.rounds)
    (hroom : w.machine.heap.Addressable) :
    r.toUnsigned v w = (r.coerced v >>= fun k => r.unsignedOf k) w := by
  obtain ⟨rounds, hr⟩ : ∃ rounds, r.rounds = rounds + 2 := ⟨r.rounds - 2, by omega⟩
  have hloop : r.coerce r.rounds v w = r.coerced v w := by
    rw [hr]
    exact coerce_eq_coerced r hroom
  show (r.coerce r.rounds v >>= fun k => r.unsignedOf k) w = _
  rw [bind_apply, bind_apply, hloop]

/-- A number is given only if there is one, and the world is then as it was. -/
theorem Takes.ok_iff {α : Type} {take : Eval σ α} {number? : Option α} {w w' : World σ} {n : α}
    (h : Takes take number? w) : take w = .ok n w' ↔ number? = some n ∧ w' = w := by
  unfold Takes at h
  cases number? with
  | some k =>
      simp only at h
      rw [h]
      simp [eq_comm]
  | none =>
      obtain ⟨fault, h⟩ := h
      rw [h]
      simp [raise_ne_ok]

/-- Taking a number comes to an end, in a number or in an exception. -/
theorem Takes.terminates {α : Type} {take : Eval σ α} {number? : Option α} {w : World σ}
    (h : Takes take number? w) : take.Terminates w := by
  intro exit w' hexit
  unfold Takes at h
  cases number? with
  | some k =>
      rw [h] at hexit
      cases hexit
  | none =>
      obtain ⟨fault, h⟩ := h
      rw [h] at hexit
      cases hexit
      exact ⟨_, rfl⟩

/-- `Integer()` terminates if coercing does, for it leaves alone or refuses what coercing leaves
alone. -/
theorem toInteger_terminates {v : Value} {w : World σ} (h : (r.coerced v).Terminates w) :
    (r.toInteger v).Terminates w := by
  intro exit w' hexit
  unfold coerced Eval.Terminates at h
  simp only [machine_bind_apply] at h
  have hopen := hexit
  unfold toInteger at hopen
  simp only [machine_bind_apply] at hopen
  cases htype : w.machine.heap.typeOf v with
  | fixnum | bignum =>
      rw [htype] at hopen
      cases hopen
  | nil =>
      rw [htype] at hopen
      cases hopen
      exact ⟨_, rfl⟩
  | float =>
      rw [htype] at hopen
      unfold integerPart at hopen
      cases hn : ((w.machine.heap.float? v).getD (Double.zero false)).truncate? with
      | some n =>
          rw [hn] at hopen
          cases hopen
      | none =>
          rw [hn] at hopen
          cases hopen
          exact ⟨_, rfl⟩
  | _ =>
      rw [htype] at h
      exact h exit w' hexit

end Reentry

/-! ### What the host reads -/

namespace Vm

open Eval Reentry

variable {σ : Type} (r : Reentry σ)

/-- With an interpreter that is up, the operation is its one task. -/
theorem toUnsigned_answer {v : Value} {w : World σ} (hup : w.state = .up) :
    (Operation.toUnsigned v).answer r w = settled r (guarded (r.toUnsigned v)) w :=
  settled_ensureSetup_of_up r hup (attempt r (.toUnsigned v))

/-- With an interpreter that is up, the operation for numbers with sign is its one task. -/
theorem toSigned_answer {v : Value} {w : World σ} (hup : w.state = .up) :
    (Operation.toSigned v).answer r w =
      settled r (guarded (r.toInteger v >>= fun k => r.toLong k)) w :=
  settled_ensureSetup_of_up r hup (attempt r (.toSigned v))

/-- A number without sign is given exactly if the object comes to a number in the range. -/
theorem toUnsigned_ok_iff {v : Value} {w : World σ} {n : Nat} (hup : w.state = .up)
    (hrounds : 2 ≤ r.rounds) (hroom : w.machine.heap.Addressable) :
    (∃ w', (Operation.toUnsigned v).answer r w = .ok (.ok n) w') ↔
      ∃ c w', r.coerced v w = .ok c w' ∧
        (Number.of? w'.machine.heap c).bind Number.toUnsigned? = some n := by
  rw [toUnsigned_answer r hup]
  constructor
  · rintro ⟨w', h⟩
    have hrun := (settled_guarded_ok_iff r).mp h
    rw [r.toUnsigned_apply hrounds hroom] at hrun
    obtain ⟨c, w₁, hc, htake⟩ := bind_ok_iff.mp hrun
    obtain ⟨hn, rfl⟩ := (unsignedOf_takes r hroom hc).ok_iff.mp htake
    exact ⟨c, w', hc, hn⟩
  · rintro ⟨c, w', hc, hn⟩
    refine ⟨w', (settled_guarded_ok_iff r).mpr ?_⟩
    rw [r.toUnsigned_apply hrounds hroom]
    exact bind_ok_iff.mpr ⟨c, w', hc, (unsignedOf_takes r hroom hc).ok_iff.mpr ⟨hn, rfl⟩⟩

/-- What `Integer()` makes of a float is its integer part, or the integer nearest to it that the
interpreter holds; it makes nothing of a float that is not finite. -/
theorem toInteger_float_ok_iff {v c : Value} {x : Double} {w w' : World σ}
    (hx : w.machine.heap.float? v = some x) :
    r.toInteger v w = .ok c w' ↔
      ∃ t, x.truncate? = some t ∧
        c = (w.machine.newInteger (Integer.saturate t)).1 ∧
        w' = { w with machine := (w.machine.newInteger (Integer.saturate t)).2 } := by
  unfold toInteger
  rw [machine_bind_apply, Heap.typeOf_of_float? hx]
  simp only [hx, Option.getD_some]
  unfold integerPart
  cases ht : x.truncate? with
  | none => simp [raise_ne_ok]
  | some t => simp [eq_comm]

/-- A number with sign is given exactly if it is in the range and the object is a float with this
integer part, or no float and `Integer()` makes this integer of it. -/
theorem toSigned_ok_iff {v : Value} {w : World σ} {n : Int} (hup : w.state = .up)
    (hroom : w.machine.heap.Addressable) :
    (∃ w', (Operation.toSigned v).answer r w = .ok (.ok n) w') ↔
      (longMin ≤ n ∧ n < longEnd) ∧
        ((∃ x, w.machine.heap.float? v = some x ∧ x.truncate? = some n) ∨
          w.machine.heap.float? v = none ∧
            ∃ c w', r.toInteger v w = .ok c w' ∧ w'.machine.heap.int? c = some n) := by
  have hread : (∃ w', (Operation.toSigned v).answer r w = .ok (.ok n) w') ↔
      ∃ c w', r.toInteger v w = .ok c w' ∧ w'.machine.heap.int? c = some n ∧
        longMin ≤ n ∧ n < longEnd := by
    rw [toSigned_answer r hup]
    constructor
    · rintro ⟨w', h⟩
      obtain ⟨c, w₁, hc, htake⟩ := bind_ok_iff.mp ((settled_guarded_ok_iff r).mp h)
      obtain ⟨k, hk⟩ := (isInteger_of_toInteger r hroom hc).exists_int?
      obtain ⟨hn, rfl⟩ := (toLong_takes r hk).ok_iff.mp htake
      grind
    · rintro ⟨c, w', hc, hk, hrange⟩
      refine ⟨w', (settled_guarded_ok_iff r).mpr (bind_ok_iff.mpr ⟨c, w', hc, ?_⟩)⟩
      refine (toLong_takes r hk).ok_iff.mpr ⟨?_, rfl⟩
      rw [if_pos hrange]
  rw [hread]
  cases hx : w.machine.heap.float? v with
  | none => grind
  | some x =>
      simp only [toInteger_float_ok_iff r hx]
      constructor
      · rintro ⟨c, w', ⟨t, ht, rfl, rfl⟩, hint, hrange⟩
        have hspec := (Machine.newInteger_spec w.machine (Integer.saturate t) hroom).2
        have hsat : Integer.saturate t = n := Option.some.inj (hspec.symm.trans hint)
        obtain ⟨rfl, _⟩ := saturate_in_range_iff.mp ⟨hsat, hrange⟩
        exact ⟨hrange, .inl ⟨x, rfl, ht⟩⟩
      · rintro ⟨hrange, ⟨y, hy, ht⟩ | ⟨hnone, _⟩⟩
        · cases hy
          obtain ⟨hsat, _⟩ := saturate_in_range_iff.mpr ⟨rfl, hrange⟩
          have hspec := (Machine.newInteger_spec w.machine (Integer.saturate n) hroom).2
          exact ⟨_, _, ⟨n, ht, rfl, rfl⟩, by rw [hspec, hsat], hrange⟩
        · cases hnone

/-- What is not read by a task that terminates surfaces. -/
theorem surfaces_of_answer {α : Type} {answer : Eval σ (Except Error α)} {action : Eval σ α}
    {w : World σ}
    (hanswer : answer w = settled r (guarded action) w)
    (hends : action.Terminates w)
    (hnone : ¬∃ n w', answer w = .ok (.ok n) w') :
    Surfaces r answer w := by
  obtain ⟨jump, w₁, h⟩ : Surfaces r (settled r (guarded action)) w := by
    refine surfaces_settled_guarded r hends fun n w' hn => hnone ⟨n, w', ?_⟩
    rw [hanswer]
    exact (settled_guarded_ok_iff r).mpr hn
  exact ⟨jump, w₁, hanswer.trans h⟩

/-- What is not read as a number without sign surfaces. -/
theorem surfaces_toUnsigned {v : Value} {w : World σ}
    (hup : w.state = .up)
    (hrounds : 2 ≤ r.rounds)
    (hroom : w.machine.heap.Addressable)
    (hterminates : (r.coerced v).Terminates w)
    (hnone : ¬∃ n w', (Operation.toUnsigned v).answer r w = .ok (.ok n) w') :
    Surfaces r ((Operation.toUnsigned v).answer r) w := by
  refine surfaces_of_answer r (toUnsigned_answer r hup) ?_ hnone
  intro exit w' hexit
  rw [r.toUnsigned_apply hrounds hroom] at hexit
  refine terminates_bind hterminates ?_ exit w' hexit
  exact fun c w₁ hc => (unsignedOf_takes r hroom hc).terminates

/-- What is not read as a number with a sign surfaces. -/
theorem surfaces_toSigned {v : Value} {w : World σ}
    (hup : w.state = .up)
    (hroom : w.machine.heap.Addressable)
    (hterminates : (r.coerced v).Terminates w)
    (hnone : ¬∃ n w', (Operation.toSigned v).answer r w = .ok (.ok n) w') :
    Surfaces r ((Operation.toSigned v).answer r) w := by
  refine surfaces_of_answer r (toSigned_answer r hup) ?_ hnone
  refine terminates_bind (toInteger_terminates r hterminates) ?_
  intro c w₁ hc
  obtain ⟨k, hk⟩ := (isInteger_of_toInteger r hroom hc).exists_int?
  exact (toLong_takes r hk).terminates

/-- **Numbers of 64 bits are read as they are.**  `Integer()` is called once at most; a number is
given exactly if the object comes to one in the range of the type; and if the coercion terminates,
everything else fails: with the panic that waits where the jump comes out, if there is one, and
otherwise with an error, as soon as the exception has been described. -/
theorem reads_of_64_bits (v : Value) (w : World σ)
    (hup : w.state = .up)
    (hrounds : 2 ≤ r.rounds)
    (hroom : w.machine.heap.Addressable) :
    let unsigned := (Operation.toUnsigned v).answer r
    let signed := (Operation.toSigned v).answer r
    r.coerce r.rounds v w = r.coerced v w ∧
    (∀ n : Nat,
      (∃ w', unsigned w = .ok (.ok n) w') ↔
        ∃ c w', r.coerced v w = .ok c w' ∧
          (Number.of? w'.machine.heap c).bind Number.toUnsigned? = some n) ∧
    (∀ n : Int,
      (∃ w', signed w = .ok (.ok n) w') ↔
        (longMin ≤ n ∧ n < longEnd) ∧
          ((∃ x, w.machine.heap.float? v = some x ∧ x.truncate? = some n) ∨
            w.machine.heap.float? v = none ∧
              ∃ c w', r.toInteger v w = .ok c w' ∧ w'.machine.heap.int? c = some n)) ∧
    ((r.coerced v).Terminates w →
      ((¬∃ n w', unsigned w = .ok (.ok n) w') → Fails r unsigned w) ∧
      ((¬∃ n w', signed w = .ok (.ok n) w') → Fails r signed w)) := by
  refine ⟨?_, fun n => toUnsigned_ok_iff r hup hrounds hroom, fun n => toSigned_ok_iff r hup hroom,
    fun hterminates => ⟨fun hnone => ?_, fun hnone => ?_⟩⟩
  · obtain ⟨rounds, hr⟩ : ∃ rounds, r.rounds = rounds + 2 := ⟨r.rounds - 2, by omega⟩
    rw [hr]
    exact coerce_eq_coerced r hroom
  · exact (surfaces_toUnsigned r hup hrounds hroom hterminates hnone).fails
  · exact (surfaces_toSigned r hup hroom hterminates hnone).fails

/-- Five is read as five without a sign, and nil is not read at all. -/
theorem reads_of_64_bits_bare :
    let w := World.bare
    w.state = .up ∧ 2 ≤ (Reentry.ofFuel 3 : Reentry Unit).rounds ∧ w.machine.heap.Addressable ∧
      (∃ w', (Operation.toUnsigned (Value.ofFixnum 5)).answer (.ofFuel 3) w = .ok (.ok 5) w') ∧
      ∃ error w',
        (Operation.toUnsigned Value.nil).answer (.ofFuel 3) w = .ok (.error error) w' := by
  have hroom : World.bare.machine.heap.Addressable := by decide
  have hfive := reads_of_64_bits (.ofFuel 3) (Value.ofFixnum 5) World.bare rfl (by decide) hroom
  have hnil := reads_of_64_bits (.ofFuel 3) Value.nil World.bare rfl (by decide) hroom
  refine ⟨rfl, by decide, hroom, (hfive.2.1 5).mpr ⟨_, _, rfl, by decide +kernel⟩, ?_⟩
  refine ((hnil.2.2.2 ?_).1 ?_).exists_error ?_
  · exact terminates_of_ending rfl
  · rintro ⟨n, w', hn⟩
    obtain ⟨c, w₁, hc, hnumber⟩ := (hnil.2.1 n).mp ⟨w', hn⟩
    cases hc
    cases hnumber
  · apply terminates_of_ending
    decide +kernel

end Vm

end EmbeddedRuby
