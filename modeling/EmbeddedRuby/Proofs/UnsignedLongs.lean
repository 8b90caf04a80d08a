import EmbeddedRuby.Proofs.Outcomes
import EmbeddedRuby.Proofs.SixtyFourBits
import Mathlib.Data.Rat.Floor
import Mathlib.Tactic.Linarith

/-!
# Unsigned numbers of 64 bits

An unsigned number is taken out of an integer or a float that lies between the smallest signed and
the largest unsigned number of 64 bits, and a negative one wraps.  For a float the range is asked of
the float itself and not of its integer part; that this comes to the same is seen by
`Double.lt_integerPart_iff` and `Double.integerPart_lt_iff`, and at the lower end because a float so
large has no fraction (`Double.value?_eq_of_le_integerPart`).

One number is left out: the float that is the smallest signed number itself
(`Number.IsLowestFloat`).  The range for integers and the one for signed numbers contain it, the
range for floats does not.  The main statement is `unsignedLong_of_number`.
-/

namespace EmbeddedRuby

open Integer (longMin longEnd unsignedEnd)

/-! ### The integer part of a float -/

namespace Double

variable {q : Rat} {bound : Int}

theorem integerPart_neg (q : Rat) : integerPart (-q) = -integerPart q := by
  unfold integerPart
  rw [Rat.num_neg_eq_neg_num, Rat.den_neg_eq_den, Int.neg_tdiv]

theorem integerPart_intCast (n : Int) : integerPart n = n := by
  unfold integerPart
  rw [Rat.num_intCast, Rat.den_intCast, Nat.cast_one, Int.tdiv_one]

theorem integerPart_nonneg (hq : 0 ≤ q) : 0 ≤ integerPart q := by
  rw [integerPart_of_nonneg hq]
  exact Rat.le_floor_iff.mpr hq

/-- A number is below a positive integer exactly if its integer part is. -/
theorem integerPart_lt_iff (hbound : 0 < bound) : integerPart q < bound ↔ q < bound := by
  rcases le_total 0 q with hq | hq
  · rw [integerPart_of_nonneg hq]
    exact Rat.floor_lt_iff
  · have hpart : 0 ≤ integerPart (-q) := integerPart_nonneg (neg_nonneg.mpr hq)
    rw [integerPart_neg] at hpart
    have hcast : (0 : Rat) < bound := by exact_mod_cast hbound
    exact iff_of_true (by omega) (hq.trans_lt hcast)

/-- A number is above a negative integer exactly if its integer part is. -/
theorem lt_integerPart_iff (hbound : bound < 0) : bound < integerPart q ↔ bound < q := by
  have hflip := integerPart_lt_iff (q := -q) (neg_pos.mpr hbound)
  rw [integerPart_neg, neg_lt_neg_iff] at hflip
  rw [hflip]
  push_cast
  exact neg_lt_neg_iff

/-- The significand of a float has 53 bits. -/
theorem significand_lt {x : Double} {negative : Bool} {significand : Nat} {exponent : Int}
    (hx : x.unpack = .finite negative significand exponent) : significand < 2 ^ 53 := by
  have hfraction : x.bits.toNat % BinaryFormat.binary64.signBit %
      BinaryFormat.binary64.fractionLimit < BinaryFormat.binary64.fractionLimit := by
    apply Nat.mod_lt
    decide
  have hlimit : BinaryFormat.binary64.fractionLimit = 2 ^ 52 := rfl
  unfold unpack BinaryFormat.unpack at hx
  simp only at hx
  split at hx
  · split at hx <;> cases hx
  · split at hx
    · cases hx
      omega
    · cases hx
      omega

/-- A significand with an exponent is an integer, or no larger than the significand. -/
theorem scaled_cases (significand : Nat) (exponent : Int) :
    (∃ n : Int, scaled significand exponent = n) ∨
      0 ≤ scaled significand exponent ∧ scaled significand exponent ≤ significand := by
  rcases le_total 0 exponent with hexponent | hexponent
  · refine .inl ⟨(significand * Nat.pow 2 exponent.toNat : Nat), ?_⟩
    have hone : (-exponent).toNat = 0 := by omega
    unfold scaled
    rw [hone]
    exact Rat.mkRat_one _
  · have hone : exponent.toNat = 0 := by omega
    have hpos : (1 : Rat) ≤ (Nat.pow 2 (-exponent).toNat : Nat) := by
      exact_mod_cast Nat.one_le_two_pow
    have hscaled : scaled significand exponent =
        significand / (Nat.pow 2 (-exponent).toNat : Nat) := by
      unfold scaled
      rw [hone, Rat.mkRat_eq_div]
      simp
    right
    rw [hscaled]
    exact ⟨div_nonneg (Nat.cast_nonneg _) (by linarith),
      div_le_self (Nat.cast_nonneg _) hpos⟩

/-- A float whose integer part does not fit in a significand is an integer. -/
theorem value?_eq_of_le_integerPart {x : Double} (hq : x.value? = some q)
    (hlarge : 2 ^ 53 ≤ (integerPart q).natAbs) : q = integerPart q := by
  unfold value? at hq
  cases hx : x.unpack with
  | nan => simp [hx] at hq
  | infinite negative => simp [hx] at hq
  | finite negative significand exponent =>
      have hsmall : (significand : Rat) < (2 ^ 53 : Int) := by
        exact_mod_cast significand_lt hx
      have hcases : (∃ n : Int, q = n) ∨ -significand ≤ q ∧ q ≤ significand := by
        have hnonneg : (0 : Rat) ≤ significand := Nat.cast_nonneg _
        simp only [hx, Option.some.injEq] at hq
        rcases scaled_cases significand exponent with ⟨n, hn⟩ | ⟨hlow, hhigh⟩
        · cases negative with
          | true => exact .inl ⟨-n, by rw [← hq, hn]; push_cast; rfl⟩
          | false => exact .inl ⟨n, by rw [← hq, hn]; rfl⟩
        · cases negative with
          | true =>
              simp only [if_true] at hq
              exact .inr ⟨by linarith, by linarith⟩
          | false =>
              simp only [Bool.false_eq_true, if_false] at hq
              exact .inr ⟨by linarith, by linarith⟩
      rcases hcases with ⟨n, rfl⟩ | ⟨hlow, hhigh⟩
      · rw [integerPart_intCast]
      · have hbelow : integerPart q < 2 ^ 53 :=
          (integerPart_lt_iff (by decide)).mpr (hhigh.trans_lt hsmall)
        have habove : -2 ^ 53 < integerPart q := by
          refine (lt_integerPart_iff (by decide)).mpr ?_
          push_cast at hsmall ⊢
          linarith
        omega

/-- At the smallest signed number a float and its integer part are one. -/
theorem integerPart_eq_longMin_iff {x : Double} (hq : x.value? = some q) :
    integerPart q = longMin ↔ q = longMin := by
  constructor
  · intro hpart
    have hwhole := value?_eq_of_le_integerPart hq (by rw [hpart]; decide)
    rw [hwhole, hpart]
  · rintro rfl
    exact integerPart_intCast longMin

end Double

/-! ### Numbers and their ranges -/

namespace Number

/-- The number without its fraction; what is not finite has none. -/
def truncate? : Number → Option Int
  | int n => some n
  | float x => x.truncate?

/-- The float that is the smallest signed number of 64 bits. -/
def IsLowestFloat : Number → Prop
  | int _ => False
  | float x => x.value? = some (longMin : Rat)

instance (k : Number) : Decidable k.IsLowestFloat := by
  cases k with
  | int n => exact inferInstanceAs (Decidable False)
  | float x => exact inferInstanceAs (Decidable (x.value? = some (longMin : Rat)))

end Number

namespace Reentry

open Eval

variable {σ : Type} (r : Reentry σ) {v : Value} {w : World σ} {k : Number} {t : Int}

/-- The number that is found in an object of a number. -/
theorem numberOf_of_of? (hk : Number.of? w.machine.heap v = some k) :
    r.numberOf v w = .ok (match k with | .int n => .inl n | .float x => .inr x) w := by
  unfold Number.of? at hk
  cases hint : w.machine.heap.int? v with
  | some n =>
      rw [hint] at hk
      cases hk
      exact r.numberOf_of_int? hint
  | none =>
      rw [hint] at hk
      obtain ⟨x, hx, rfl⟩ := Option.map_eq_some_iff.mp hk
      exact r.numberOf_of_float? hx hint

/-- An unsigned number is the number without its fraction, modulo `2 ^ 64`, or a range error. -/
theorem toUnsignedLong_apply (hk : Number.of? w.machine.heap v = some k)
    (ht : k.truncate? = some t) :
    ∃ fault : Fault, fault.cls = .rangeError ∧
      r.toUnsignedLong v w =
        if (longMin ≤ t ∧ t < unsignedEnd) ∧ ¬k.IsLowestFloat then
          .ok (t % unsignedEnd).toNat w
        else raise fault w := by
  cases k with
  | int n =>
      cases ht
      refine ⟨.bignumBeyondUnsigned, rfl, ?_⟩
      unfold toUnsignedLong
      rw [bind_apply, r.numberOf_of_of? hk]
      by_cases hrange : longMin ≤ t ∧ t < unsignedEnd
      · simp [hrange, Number.IsLowestFloat]
      · simp [hrange]
  | float x =>
      obtain ⟨q, hq, rfl⟩ := Option.map_eq_some_iff.mp ht
      have hlow : longMin < Double.integerPart q ↔ (longMin : Rat) < q :=
        Double.lt_integerPart_iff (by decide)
      have hhigh : Double.integerPart q < unsignedEnd ↔ q < unsignedEnd :=
        Double.integerPart_lt_iff (by decide)
      have hlowest : (Number.float x).IsLowestFloat ↔ Double.integerPart q = longMin := by
        rw [Double.integerPart_eq_longMin_iff hq]
        simp [Number.IsLowestFloat, hq]
      refine ⟨.floatBeyondInteger x.text, rfl, ?_⟩
      have hrange : ((longMin : Rat) < q ∧ q < unsignedEnd) ↔
          (longMin ≤ Double.integerPart q ∧ Double.integerPart q < unsignedEnd) ∧
            ¬(Number.float x).IsLowestFloat := by
        rw [← hlow, ← hhigh, hlowest]
        omega
      unfold toUnsignedLong
      rw [bind_apply, r.numberOf_of_of? hk]
      simp only [hq, ← hrange]
      split <;> rfl

/-- A signed number is the number without its fraction, or a range error. -/
theorem toLong_apply (hk : Number.of? w.machine.heap v = some k) (ht : k.truncate? = some t) :
    ∃ fault : Fault, fault.cls = .rangeError ∧
      r.toLong v w = if longMin ≤ t ∧ t < longEnd then .ok t w else raise fault w := by
  cases k with
  | int n =>
      cases ht
      refine ⟨.bignumBeyondLong, rfl, ?_⟩
      unfold toLong
      rw [bind_apply, r.numberOf_of_of? hk]
      by_cases hrange : longMin ≤ t ∧ t < longEnd
      · simp [hrange]
      · simp [hrange]
  | float x =>
      obtain ⟨q, hq, rfl⟩ := Option.map_eq_some_iff.mp ht
      have hlow : longMin < Double.integerPart q ↔ (longMin : Rat) < q :=
        Double.lt_integerPart_iff (by decide)
      have hhigh : Double.integerPart q < longEnd ↔ q < longEnd :=
        Double.integerPart_lt_iff (by decide)
      have hend := Double.integerPart_eq_longMin_iff hq
      refine ⟨.floatBeyondInteger x.text, rfl, ?_⟩
      have hrange : ((longMin : Rat) ≤ q ∧ q < longEnd) ↔
          longMin ≤ Double.integerPart q ∧ Double.integerPart q < longEnd := by
        rw [← hhigh, le_iff_lt_or_eq, le_iff_lt_or_eq, hlow, eq_comm (b := q),
          eq_comm (a := longMin), hend]
      unfold toLong
      rw [bind_apply, r.numberOf_of_of? hk]
      simp only [hq, hrange]
      split <;> rfl

theorem toUnsignedLong_ok_iff (hk : Number.of? w.machine.heap v = some k)
    (ht : k.truncate? = some t) {n : Nat} {w' : World σ} :
    r.toUnsignedLong v w = .ok n w' ↔
      (longMin ≤ t ∧ t < unsignedEnd) ∧ ¬k.IsLowestFloat ∧ (n : Int) = t % unsignedEnd ∧
        w' = w := by
  obtain ⟨fault, -, hrun⟩ := toUnsignedLong_apply r hk ht
  rw [hrun]
  have hpos : 0 ≤ t % unsignedEnd := Int.emod_nonneg t (by decide)
  split
  · constructor
    · intro h
      cases h
      grind
    · rintro ⟨-, -, hn, rfl⟩
      rw [← hn]
      rfl
  · constructor
    · exact fun h => absurd h raise_ne_ok
    · grind

theorem toLong_ok_iff (hk : Number.of? w.machine.heap v = some k) (ht : k.truncate? = some t)
    {n : Int} {w' : World σ} :
    r.toLong v w = .ok n w' ↔ (longMin ≤ t ∧ t < longEnd) ∧ n = t ∧ w' = w := by
  obtain ⟨fault, -, hrun⟩ := toLong_apply r hk ht
  rw [hrun]
  split
  · constructor
    · intro h
      cases h
      grind
    · rintro ⟨-, rfl, rfl⟩
      rfl
  · constructor
    · exact fun h => absurd h raise_ne_ok
    · grind

/-- **One range for all numbers, but for one float.**  An unsigned number is taken out of an integer
or a finite float exactly if the number without its fraction lies between the smallest signed and
the largest unsigned number of 64 bits, and it is that modulo `2 ^ 64`; anything else is a range
error.  Left out is the float that is the smallest signed number: everywhere else a float is taken
as the integer of the same value is, and as a signed number where it is one. -/
theorem unsignedLong_of_number {v : Value} {w : World σ} {k : Number} {t : Int}
    (hk : Number.of? w.machine.heap v = some k)
    (ht : k.truncate? = some t)
    (hroom : w.RoomToRaise) :
    (∀ n w', r.toUnsignedLong v w = .ok n w' ↔
      (longMin ≤ t ∧ t < unsignedEnd) ∧ ¬k.IsLowestFloat ∧ (n : Int) = t % unsignedEnd ∧
        w' = w) ∧
    ((r.toUnsignedLong v).Raises w .rangeError ↔
      ¬(longMin ≤ t ∧ t < unsignedEnd) ∨ k.IsLowestFloat) ∧
    (∀ integer, w.machine.heap.int? integer = some t →
      ((∀ n w', r.toUnsignedLong v w = .ok n w' ↔ r.toUnsignedLong integer w = .ok n w') ↔
        ¬k.IsLowestFloat)) ∧
    ((∀ n w', r.toLong v w = .ok n w' →
      ∃ m : Nat, r.toUnsignedLong v w = .ok m w' ∧ (m : Int) = n % unsignedEnd) ↔
        ¬k.IsLowestFloat) := by
  have hunsigned : ∀ n w', r.toUnsignedLong v w = .ok n w' ↔
      (longMin ≤ t ∧ t < unsignedEnd) ∧ ¬k.IsLowestFloat ∧ (n : Int) = t % unsignedEnd ∧
        w' = w :=
    fun n w' => toUnsignedLong_ok_iff r hk ht
  have hnat : ∃ m : Nat, (m : Int) = t % unsignedEnd :=
    ⟨(t % unsignedEnd).toNat, Int.toNat_of_nonneg (Int.emod_nonneg t (by decide))⟩
  have hlowest : k.IsLowestFloat → t = longMin := by
    intro h
    cases k with
    | int n => cases h
    | float x =>
        obtain ⟨q, hq, rfl⟩ := Option.map_eq_some_iff.mp ht
        rw [Double.integerPart_eq_longMin_iff hq]
        exact Option.some.inj (hq.symm.trans h)
  have hranges : longMin < longEnd ∧ longEnd < unsignedEnd := by decide
  refine ⟨hunsigned, ?_, fun integer hinteger => ?_, ?_⟩
  · obtain ⟨fault, hfault, hrun⟩ := toUnsignedLong_apply r hk ht
    constructor
    · rintro ⟨exception, w', hexit, -⟩
      rw [hrun] at hexit
      split at hexit
      · cases hexit
      · grind
    · intro hout
      rw [if_neg (by grind)] at hrun
      obtain ⟨exception, w', hraise, hcls⟩ := raises_raise (α := Nat) hroom fault
      exact ⟨exception, w', hrun.trans hraise, by rw [hcls, hfault]⟩
  · have hother := fun (n : Nat) (w' : World σ) =>
      (toUnsignedLong_ok_iff r (Number.of?_of_int? hinteger) rfl :
        r.toUnsignedLong _ w = .ok n w' ↔ _)
    simp only [hunsigned, hother, Number.IsLowestFloat, not_false_eq_true, true_and]
    constructor
    · intro hsame hfloat
      obtain ⟨m, hm⟩ := hnat
      have ht := hlowest hfloat
      have hboth := (hsame m w).mpr ⟨by omega, hm, rfl⟩
      exact hboth.2.1 hfloat
    · intro hno n w'
      simp [hno]
  · simp only [hunsigned, toLong_ok_iff r hk ht]
    constructor
    · intro hwraps hfloat
      have ht := hlowest hfloat
      obtain ⟨m, hm, -⟩ := hwraps t w ⟨by omega, rfl, rfl⟩
      exact hm.2.1 hfloat
    · rintro hno n w' ⟨hrange, rfl, rfl⟩
      obtain ⟨m, hm⟩ := hnat
      exact ⟨m, ⟨by omega, hno, hm, rfl⟩, hm⟩

/-- The float that is the smallest signed number is refused, though it is taken as a signed one. -/
theorem unsignedLong_of_number_lowest :
    let made := World.bare.machine.newFloat ⟨0xc3e0000000000000⟩
    let w : World Unit := { World.bare with machine := made.2 }
    Number.of? w.machine.heap made.1 = some (.float ⟨0xc3e0000000000000⟩) ∧
      (Number.float ⟨0xc3e0000000000000⟩).truncate? = some longMin ∧
      ((Reentry.ofFuel 1).toUnsignedLong made.1).Raises w .rangeError ∧
      (Reentry.ofFuel 1).toLong made.1 w = .ok longMin w := by
  intro made w
  have hfloat : Number.of? w.machine.heap made.1 = some (.float ⟨0xc3e0000000000000⟩) := by
    decide +kernel
  have hpart : (Number.float ⟨0xc3e0000000000000⟩).truncate? = some longMin := by decide +kernel
  have hlowest : (Number.float ⟨0xc3e0000000000000⟩).IsLowestFloat := by decide +kernel
  have hroom : w.RoomToRaise := by decide +kernel
  obtain ⟨-, hraises, -⟩ := unsignedLong_of_number (.ofFuel 1) hfloat hpart hroom
  exact ⟨hfloat, hpart, hraises.mpr (.inr hlowest),
    (toLong_ok_iff (.ofFuel 1) hfloat hpart).mpr ⟨by decide, rfl, rfl⟩⟩

end Reentry

end EmbeddedRuby
