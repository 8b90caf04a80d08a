import EmbeddedRuby.Proofs.Outcomes
import Mathlib.Algebra.Order.Round
import Mathlib.Data.Rat.Floor

/-!
# Arithmetic on integers

What the interpreter's arithmetic gives on two integers is compared with the exact result over the
integers and rationals (`Arithmetic.exactResult?`): sum, difference and product, the quotient rounded
down, and the remainder that belongs to it.

The exact result is given if the interpreter holds it, and a range error is raised if it does not,
with one exception.  The remainder is refused together with the quotient rounded toward zero, and
that quotient does not fit for the smallest integer by `-1` (`Arithmetic.RefusedWithQuotient`),
where the remainder would be zero.  Changing the sign does not raise at all: the smallest integer
has no other sign, and there the interpreter panics.  Nothing wraps.  The main statement is
`integer_arithmetic`.
-/

namespace EmbeddedRuby

open Integer (minValue maxValue fits checked)

/-! ### The integers that the interpreter holds -/

namespace Integer

variable {n a b : Int}

/-- An integer is held from the smallest to the largest. -/
theorem fits_iff : fits n = true ↔ minValue ≤ n ∧ n ≤ maxValue := by
  simp [fits]

/-- What is held passes the check as it is. -/
theorem checked_of_fits (h : fits n = true) : checked n = some n := by
  simp [checked, h]

/-- What is not held does not pass. -/
theorem checked_of_not_fits (h : ¬fits n = true) : checked n = none := by
  simp [checked, h]

/-- Only the smallest integer has no other sign. -/
theorem fits_neg_iff (ha : fits a = true) : fits (-a) = true ↔ a ≠ minValue := by
  rw [fits_iff] at ha ⊢
  unfold minValue maxValue at ha ⊢
  omega

/-- A quotient rounded toward zero is held, except for the smallest integer by `-1`. -/
theorem fits_tdiv_iff (ha : fits a = true) (hb : b ≠ 0) :
    fits (a.tdiv b) = true ↔ ¬(a = minValue ∧ b = -1) := by
  by_cases hone : b = -1
  · subst hone
    rw [Int.tdiv_neg, Int.tdiv_one, fits_neg_iff ha]
    simp
  · have hbound : (a.tdiv b).natAbs ≤ a.natAbs := Int.natAbs_tdiv_le_natAbs a b
    have hnotmin : a.tdiv b ≤ maxValue := by
      by_cases htwo : 2 ≤ b.natAbs
      · have hhalf : (a.tdiv b).natAbs ≤ a.natAbs / 2 := by
          rw [Int.natAbs_tdiv]
          exact Nat.div_le_div_left htwo (by decide)
        rw [fits_iff] at ha
        unfold minValue maxValue at ha
        unfold maxValue
        omega
      · obtain rfl : b = 1 := by omega
        rw [Int.tdiv_one]
        exact (fits_iff.mp ha).2
    rw [fits_iff] at ha ⊢
    unfold minValue maxValue at ha hnotmin ⊢
    omega

/-- A remainder is held as its divisor is. -/
theorem fits_fmod (hb : fits b = true) (hzero : b ≠ 0) : fits (a.fmod b) = true := by
  rw [fits_iff] at hb ⊢
  unfold minValue maxValue at hb ⊢
  rcases Int.lt_or_gt_of_ne hzero with hneg | hpos
  · have hflip : (-a).fmod (-b) = -a.fmod b := Int.neg_fmod_neg a b
    have hle : 0 ≤ (-a).fmod (-b) := Int.fmod_nonneg_of_pos (-a) (by omega)
    have hlt : (-a).fmod (-b) < -b := Int.fmod_lt_of_pos (-a) (by omega)
    omega
  · have hle : 0 ≤ a.fmod b := Int.fmod_nonneg_of_pos a hpos
    have hlt : a.fmod b < b := Int.fmod_lt_of_pos a hpos
    omega

/-- The quotient rounded down, by a positive number. -/
theorem fdiv_eq_floor_of_nonneg (hb : 0 ≤ b) : a.fdiv b = ⌊(a : ℚ) / b⌋ := by
  lift b to Nat using hb
  rw [Int.fdiv_eq_ediv_of_nonneg a (Int.natCast_nonneg b)]
  exact (Rat.floor_intCast_div_natCast a b).symm

/-- The quotient rounded down is the floor of the rational quotient. -/
theorem fdiv_eq_floor (a b : Int) : a.fdiv b = ⌊(a : ℚ) / b⌋ := by
  rcases le_total 0 b with hb | hb
  · exact fdiv_eq_floor_of_nonneg hb
  · have hflip := fdiv_eq_floor_of_nonneg (a := -a) (neg_nonneg.mpr hb)
    rw [Int.neg_fdiv_neg] at hflip
    rw [hflip]
    push_cast
    rw [neg_div_neg_eq]

end Integer

/-! ### Rounding down -/

namespace Arithmetic

variable {a b : Int}

/-- What rounding toward zero leaves over has the sign of the dividend. -/
theorem tmod_neg_iff (hrest : a.tmod b ≠ 0) : a.tmod b < 0 ↔ a < 0 := by
  have hsign : (a.tmod b).sign = a.sign := by
    rw [Int.sign_tmod, if_neg (mt Int.tmod_eq_zero_of_dvd hrest)]
  rw [← Int.sign_eq_neg_one_iff_neg, hsign, Int.sign_eq_neg_one_iff_neg]

/-- One test is on the dividend and the other one on what is left over, and they agree. -/
theorem floorQuotient_mul_add_floorRemainder (a b : Int) :
    floorQuotient a b * b + floorRemainder a b = a := by
  have htoward : a.tdiv b * b + a.tmod b = a := Int.tdiv_mul_add_tmod a b
  unfold floorQuotient floorRemainder
  by_cases hrest : a.tmod b = 0
  · simpa [hrest] using htoward
  · simp only [tmod_neg_iff hrest]
    split
    · rw [Int.sub_mul]
      omega
    · exact htoward

/-- What is left over is smaller than the divisor. -/
theorem natAbs_tmod_lt (a : Int) (hb : b ≠ 0) : (a.tmod b).natAbs < b.natAbs := by
  rw [Int.natAbs_tmod]
  exact Nat.mod_lt _ (Int.natAbs_pos.mpr hb)

/-- The remainder by a positive number is not negative. -/
theorem floorRemainder_of_pos (a : Int) (hb : 0 < b) :
    0 ≤ floorRemainder a b ∧ floorRemainder a b < b := by
  have hlt : (a.tmod b).natAbs < b.natAbs := natAbs_tmod_lt a hb.ne'
  unfold floorRemainder
  split <;> omega

/-- The remainder by a negative number is not positive. -/
theorem floorRemainder_of_neg (a : Int) (hb : b < 0) :
    b < floorRemainder a b ∧ floorRemainder a b ≤ 0 := by
  have hlt : (a.tmod b).natAbs < b.natAbs := natAbs_tmod_lt a hb.ne
  unfold floorRemainder
  split <;> omega

/-- Quotient and remainder are those of rounding down. -/
theorem floor_eq (a : Int) (hb : b ≠ 0) :
    a.fdiv b = floorQuotient a b ∧ a.fmod b = floorRemainder a b := by
  have hlaw : floorRemainder a b + b * floorQuotient a b = a := by
    rw [Int.add_comm, Int.mul_comm]
    exact floorQuotient_mul_add_floorRemainder a b
  rcases Int.lt_or_gt_of_ne hb with hneg | hpos
  · exact (Int.fdiv_fmod_unique' hneg).mpr ⟨hlaw, floorRemainder_of_neg a hneg⟩
  · exact (Int.fdiv_fmod_unique hpos).mpr ⟨hlaw, floorRemainder_of_pos a hpos⟩

/-- The correction by one never leads out of what is held. -/
theorem fits_floorQuotient_iff (ha : fits a = true) (hb : b ≠ 0) :
    fits (floorQuotient a b) = true ↔ fits (a.tdiv b) = true := by
  unfold floorQuotient
  split
  · next hcorrected =>
    have htwo : 2 ≤ b.natAbs := by
      have hlt : (a.tmod b).natAbs < b.natAbs := natAbs_tmod_lt a hb
      omega
    have hhalf : (a.tdiv b).natAbs ≤ a.natAbs / 2 := by
      rw [Int.natAbs_tdiv]
      exact Nat.div_le_div_left htwo (by decide)
    simp only [Integer.fits_iff] at ha ⊢
    unfold minValue maxValue at ha ⊢
    omega
  · exact Iff.rfl

end Arithmetic

/-! ### The exact results -/

namespace Arithmetic

/-- The method of the interpreter's own. -/
def builtin : Arithmetic → Builtin
  | add => .add
  | sub => .sub
  | mul => .mul
  | div => .div
  | mod => .mod

/-- The name that integers have the method under. -/
def name : Arithmetic → String
  | add => "+"
  | sub => "-"
  | mul => "*"
  | div => "/"
  | mod => "%"

/-- Integers have the operation as a method of their own. -/
theorem ownMethod?_name (op : Arithmetic) :
    CoreClass.integer.ownMethod? op.name = some op.builtin := by
  cases op <;> decide +kernel

/-- The exact result, quotients being rounded down; there is none for the divisor zero. -/
def exactResult? : Arithmetic → Int → Int → Option Int
  | add, a, b => some (a + b)
  | sub, a, b => some (a - b)
  | mul, a, b => some (a * b)
  | div, a, b => if b = 0 then none else some ⌊(a : ℚ) / b⌋
  | mod, a, b => if b = 0 then none else some (a - b * ⌊(a : ℚ) / b⌋)

/-- The one remainder that is refused although it is held: its quotient is not. -/
def RefusedWithQuotient (op : Arithmetic) (a b : Int) : Prop :=
  op = mod ∧ a = minValue ∧ b = -1

instance (op : Arithmetic) (a b : Int) : Decidable (op.RefusedWithQuotient a b) := by
  unfold RefusedWithQuotient
  infer_instance

/-- What an operation comes to on two integers. -/
def outcome (op : Arithmetic) (a b : Int) : Except CoreClass Int :=
  match op.exactResult? a b with
  | none => .error .zeroDivisionError
  | some n =>
    if fits n = true ∧ ¬op.RefusedWithQuotient a b then .ok n else .error .rangeError

variable {op : Arithmetic} {a b n : Int}

/-- An operation gives a number if that is the exact result, is held, and is not refused with its
quotient. -/
theorem outcome_eq_ok_iff : op.outcome a b = .ok n ↔
    op.exactResult? a b = some n ∧ fits n = true ∧ ¬op.RefusedWithQuotient a b := by
  unfold outcome
  grind

/-- An operation raises a range error if there is an exact result that is not held or is refused. -/
theorem outcome_eq_rangeError_iff : op.outcome a b = .error .rangeError ↔
    ∃ n, op.exactResult? a b = some n ∧ (¬fits n = true ∨ op.RefusedWithQuotient a b) := by
  unfold outcome
  grind

/-- An operation raises a division error if there is no exact result. -/
theorem outcome_eq_zeroDivisionError_iff : op.outcome a b = .error .zeroDivisionError ↔
    op.exactResult? a b = none := by
  unfold outcome
  grind

/-- There is no exact result for the divisor zero only. -/
theorem exactResult?_eq_none_iff : op.exactResult? a b = none ↔ op.divides = true ∧ b = 0 := by
  cases op <;> simp [exactResult?, divides]

/-- With a divisor the exact results are those of rounding down. -/
theorem exactResult?_div (hb : b ≠ 0) : div.exactResult? a b = some (floorQuotient a b) := by
  rw [exactResult?, if_neg hb, ← Integer.fdiv_eq_floor, (floor_eq a hb).1]

/-- The exact remainder is the one that belongs to rounding down. -/
theorem exactResult?_mod (hb : b ≠ 0) : mod.exactResult? a b = some (floorRemainder a b) := by
  rw [exactResult?, if_neg hb, ← Integer.fdiv_eq_floor, ← Int.fmod_def, (floor_eq a hb).2]

/-- The interpreter's operation gives the exact result, as far as it holds it and does not refuse
it. -/
theorem onInts_eq (ha : fits a = true) (hb : fits b = true)
    (hexact : op.exactResult? a b = some n) :
    op.onInts a b = if fits n = true ∧ ¬op.RefusedWithQuotient a b then some n else none := by
  cases op with
  | mod =>
      by_cases hzero : b = 0
      · simp [exactResult?, hzero] at hexact
      · obtain rfl : floorRemainder a b = n := by
          simpa only [exactResult?_mod hzero, Option.some.injEq] using hexact
        have hheld := Integer.fits_tdiv_iff ha hzero
        by_cases hrefused : a = minValue ∧ b = -1
        · have hquotient : ¬fits (a.tdiv b) = true := by
            rw [hheld]
            exact not_not_intro hrefused
          have hnone : mod.onInts a b = none := by
            simp only [onInts, Integer.checked_of_not_fits hquotient, Option.map_none]
          rw [hnone, if_neg fun hgiven => hgiven.2 ⟨rfl, hrefused⟩]
        · have hquotient : fits (a.tdiv b) = true := hheld.mpr hrefused
          have hsome : mod.onInts a b = some (floorRemainder a b) := by
            simp only [onInts, Integer.checked_of_fits hquotient, Option.map_some]
          have hremainder : fits (floorRemainder a b) = true := by
            rw [← (floor_eq a hzero).2]
            exact Integer.fits_fmod hb hzero
          rw [hsome, if_pos ⟨hremainder, fun hrefuse => hrefused hrefuse.2⟩]
  | div =>
      by_cases hzero : b = 0
      · simp [exactResult?, hzero] at hexact
      · obtain rfl : floorQuotient a b = n := by
          simpa only [exactResult?_div hzero, Option.some.injEq] using hexact
        have hheld := fits_floorQuotient_iff ha hzero
        by_cases hquotient : fits (a.tdiv b) = true
        · simp [onInts, Integer.checked_of_fits hquotient, hheld.mpr hquotient,
            RefusedWithQuotient]
        · simp [onInts, Integer.checked_of_not_fits hquotient, mt hheld.mp hquotient]
  | _ =>
      cases hexact
      simp [onInts, checked, RefusedWithQuotient]

end Arithmetic

/-! ### The methods -/

namespace Builtin

open Eval Methods

variable {σ : Type} (r : Reentry σ) {call : Call σ} {w : World σ} {a b : Int}

/-- Two integers are found as operands. -/
theorem operands_apply (hcount : call.args.length = 1)
    (ha : w.machine.heap.int? call.receiver = some a)
    (hb : w.machine.heap.int? (call.arg 0) = some b) :
    operands call w = .ok (.int a, .int b) w := by
  unfold operands
  rw [checkArity_bind_apply (Nat.le_of_eq hcount.symm) (Nat.le_of_eq hcount)]
  simp only [machine_bind_apply, Number.of?_of_int? ha, Number.of?_of_int? hb, pure_apply]

/-- The interpreter's own method for an operation carries it out. -/
theorem run_builtin (op : Arithmetic) (call : Call σ) :
    Builtin.run r op.builtin call = arithmetic op call := by
  cases op <;> rfl

/-- An operation comes to its outcome on the two integers. -/
theorem arithmetic_hasOutcome (op : Arithmetic) (hcount : call.args.length = 1)
    (ha : w.machine.heap.int? call.receiver = some a) (hafits : fits a = true)
    (hb : w.machine.heap.int? (call.arg 0) = some b) (hbfits : fits b = true)
    (hroom : w.RoomToRaise) :
    (Builtin.run r op.builtin call).HasOutcome w (op.outcome a b) := by
  rw [run_builtin]
  unfold Arithmetic.outcome
  cases hexact : op.exactResult? a b with
  | none =>
      obtain ⟨hdivides, rfl⟩ := Arithmetic.exactResult?_eq_none_iff.mp hexact
      refine HasOutcome.congr (raises_raise hroom .dividedByZero) ?_
      unfold arithmetic
      rw [bind_apply, operands_apply hcount ha hb]
      simp [hdivides]
  | some n =>
      have hdivisor : (op.divides && b == 0) = false := by
        have hnone : ¬(op.divides = true ∧ b = 0) := by
          rw [← Arithmetic.exactResult?_eq_none_iff, hexact]
          simp
        simpa using hnone
      have hop := Arithmetic.onInts_eq hafits hbfits hexact
      by_cases hgiven : fits n = true ∧ ¬op.RefusedWithQuotient a b
      · simp only [hgiven, and_self, not_false_eq_true, if_true] at hop ⊢
        refine HasOutcome.congr (givesInteger_newInteger hroom.addressable n) ?_
        unfold arithmetic
        rw [bind_apply, operands_apply hcount ha hb]
        simp [hdivisor, hop, ofNumber]
      · rw [if_neg hgiven] at hop
        simp only [hgiven, if_false]
        refine HasOutcome.congr (raises_raise hroom .integerOverflow) ?_
        unfold arithmetic
        rw [bind_apply, operands_apply hcount ha hb]
        simp [hdivisor, hop]

/-- The number with the other sign is given where the interpreter holds it. -/
theorem negated_hasOutcome (ha : w.machine.heap.int? call.receiver = some a) (hmin : a ≠ minValue)
    (hroom : w.machine.heap.Addressable) :
    (Builtin.run r .negate call).HasOutcome w (.ok (-a)) := by
  refine HasOutcome.congr (givesInteger_newInteger hroom (-a)) ?_
  show negated call w = _
  unfold negated
  rw [machine_bind_apply, Number.of?_of_int? ha]
  simp [hmin, ofNumber]

/-- The smallest integer has no other sign; asking for it panics. -/
theorem negated_minValue (ha : w.machine.heap.int? call.receiver = some minValue) :
    Builtin.run r .negate call w = crash "attempt to negate with overflow" w := by
  show negated call w = _
  unfold negated
  rw [machine_bind_apply, Number.of?_of_int? ha]
  simp

/-- **Arithmetic is exact or refused.**  The methods of integers are the interpreter's own.  On
integers that it holds an operation gives the exact result exactly if the interpreter holds that
too, and raises a range error exactly if it does not; but for the remainder of the smallest integer
by `-1`, which is zero and is refused.  The divisor zero is an error of its own, and there is no
other ending.  The sign is changed exactly if the result is held; where it is not, that is a
panic. -/
theorem integer_arithmetic (op : Arithmetic) {call negation : Call σ} {w : World σ} {a b : Int}
    (hcount : call.args.length = 1)
    (ha : w.machine.heap.int? call.receiver = some a) (hafits : fits a = true)
    (hb : w.machine.heap.int? (call.arg 0) = some b) (hbfits : fits b = true)
    (hnegation : negation.receiver = call.receiver)
    (hroom : w.RoomToRaise) :
    let result := Builtin.run r op.builtin call
    let opposite := Builtin.run r .negate negation
    (CoreClass.integer.ownMethod? op.name = some op.builtin ∧
      CoreClass.integer.ownMethod? "-@" = some .negate) ∧
    (∀ n, result.GivesInteger w n ↔
      op.exactResult? a b = some n ∧ fits n = true ∧ ¬op.RefusedWithQuotient a b) ∧
    (result.Raises w .rangeError ↔
      ∃ n, op.exactResult? a b = some n ∧ (¬fits n = true ∨ op.RefusedWithQuotient a b)) ∧
    (result.Raises w .zeroDivisionError ↔ op.divides = true ∧ b = 0) ∧
    ((∃ n, result.GivesInteger w n) ∨ result.Raises w .rangeError ∨
      result.Raises w .zeroDivisionError) ∧
    ¬result.Panics w ∧
    (∀ n, opposite.GivesInteger w n ↔ n = -a ∧ fits n = true) ∧
    (opposite.Panics w ↔ ¬fits (-a) = true) ∧
    ∀ cls, ¬opposite.Raises w cls := by
  intro result opposite
  have hresult : result.HasOutcome w (op.outcome a b) :=
    arithmetic_hasOutcome r op hcount ha hafits hb hbfits hroom
  have hopposite : (fits (-a) = true ∧ opposite.HasOutcome w (.ok (-a))) ∨
      (¬fits (-a) = true ∧ opposite w = crash "attempt to negate with overflow" w) := by
    rw [← hnegation] at ha
    rw [Integer.fits_neg_iff hafits]
    by_cases hmin : a = minValue
    · subst hmin
      exact .inr ⟨not_not_intro rfl, negated_minValue r ha⟩
    · exact .inl ⟨hmin, negated_hasOutcome r ha hmin hroom.addressable⟩
  refine ⟨⟨op.ownMethod?_name, by decide +kernel⟩, fun n => ?_, ?_, ?_, ?_, hresult.not_panics,
    fun n => ?_, ?_, fun cls => ?_⟩
  · rw [hresult.gives_iff, Arithmetic.outcome_eq_ok_iff]
  · rw [hresult.raises_iff, Arithmetic.outcome_eq_rangeError_iff]
  · rw [hresult.raises_iff, Arithmetic.outcome_eq_zeroDivisionError_iff,
      Arithmetic.exactResult?_eq_none_iff]
  · simp only [hresult.gives_iff, hresult.raises_iff]
    unfold Arithmetic.outcome
    grind
  · rcases hopposite with ⟨hfits, h⟩ | ⟨hfits, h⟩
    · rw [h.gives_iff]
      grind
    · constructor
      · rintro ⟨v, w', hrun, -⟩
        cases hrun.symm.trans h
      · rintro ⟨rfl, hheld⟩
        exact absurd hheld hfits
  · rcases hopposite with ⟨hfits, h⟩ | ⟨hfits, h⟩
    · simp [hfits, h.not_panics]
    · exact iff_of_true ⟨_, _, h⟩ hfits
  · rcases hopposite with ⟨hfits, h⟩ | ⟨hfits, h⟩
    · simp [h.raises_iff]
    · rintro ⟨exception, w', hrun, -⟩
      cases hrun.symm.trans h

/-- The smallest integer, which is in a slot of the heap, by `-1`: the remainder is refused, and so
is the other sign. -/
theorem integer_arithmetic_minValue :
    let w : World Unit :=
      { World.bare with machine := (World.bare.machine.newInteger minValue).2 }
    let least := (World.bare.machine.newInteger minValue).1
    let call : Call Unit := ⟨least, ⟨0⟩, [Value.ofFixnum (-1)], false, .none⟩
    let negation : Call Unit := ⟨least, ⟨0⟩, [], false, .none⟩
    w.machine.heap.int? least = some minValue ∧
      (Builtin.run (.ofFuel 1) .mod call).Raises w .rangeError ∧
      (Builtin.run (.ofFuel 1) .negate negation).Panics w := by
  intro w least call negation
  have hleast : w.machine.heap.int? least = some minValue := by decide +kernel
  have hone : w.machine.heap.int? (call.arg 0) = some (-1) := by decide +kernel
  have hroom : w.RoomToRaise := by decide +kernel
  have hcount : call.args.length = 1 := rfl
  have hnegation : negation.receiver = call.receiver := rfl
  obtain ⟨-, -, hrange, -, -, -, -, hpanics, -⟩ :=
    integer_arithmetic (.ofFuel 1) .mod hcount hleast (by decide) hone (by decide) hnegation hroom
  refine ⟨hleast, hrange.mpr ⟨0, ?_, .inr (by decide)⟩, hpanics.mpr (by decide)⟩
  simp [Arithmetic.exactResult?, minValue]

end Builtin

end EmbeddedRuby
