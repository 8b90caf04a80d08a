import EmbeddedRuby.Proofs.Description
import EmbeddedRuby.Proofs.IntegerArithmetic

/-!
# Division with a remainder

Quotient and remainder are asked for one after the other, each by the name of a method, and the world
may have gone on in between.  If both are given, then they belong together: the quotient times the
divisor and the remainder make the dividend, the remainder is smaller than the divisor, and it is zero
or has the sign of the divisor.  That is so for integers in words, in slots of the heap, and one of
each; a result is in a word exactly if it fits in one, whatever the operands are in.

Each method is followed to the integer that it makes (`World.Operands.run_ok_iff`), and the law is
that of the two corrections (`Arithmetic.floorQuotient_mul_add_floorRemainder`).  The main statement is
`World.division_with_remainder`.
-/

namespace EmbeddedRuby

open Eval
open Integer (minValue fits checked)

variable {σ : Type} {w w' u : World σ} {x y v : Value} {a b n : Int}

/-- The object reads as this integer, and is in a word exactly if that fits in one. -/
structure Heap.Holds (h : Heap) (v : Value) (n : Int) : Prop where
  number : h.int? v = some n
  type : h.typeOf v = if fixnumMin ≤ n ∧ n ≤ fixnumMax then .fixnum else .bignum

/-- A new integer is in a word if it fits in one. -/
theorem Machine.holds_newInteger (m : Machine) (n : Int) (hroom : m.heap.Addressable) :
    (m.newInteger n).2.heap.Holds (m.newInteger n).1 n := by
  refine ⟨(m.newInteger_spec n hroom).2, ?_⟩
  unfold newInteger Heap.ofInteger
  by_cases hfits : fixnumMin ≤ n ∧ n ≤ fixnumMax
  · rw [if_pos hfits, if_pos hfits]
    exact Heap.typeOf_of_fixnum? (Value.fixnum?_ofFixnum hfits.1 hfits.2)
  · rw [if_neg hfits, if_neg hfits]
    exact Heap.typeOf_of_body? (Heap.body?_alloc hroom CoreClass.integer.value (.bignum n))

/-- A new Integer is of the class `Integer`, with an object of its own or without. -/
theorem Machine.classOf_newInteger (m : Machine) (n : Int) (hroom : m.heap.Addressable) :
    (m.newInteger n).2.heap.classOf (m.newInteger n).1 = CoreClass.integer.value := by
  unfold newInteger Heap.ofInteger
  by_cases hfits : fixnumMin ≤ n ∧ n ≤ fixnumMax
  · rw [if_pos hfits]
    exact Heap.classOf_of_fixnum? (Value.fixnum?_ofFixnum hfits.1 hfits.2)
  · rw [if_neg hfits]
    exact Heap.classOf_of_slot? (Heap.slot?_alloc hroom _ _)

/-- A new Integer takes the room of one object at most. -/
theorem Machine.hasRoom_newInteger {m : Machine} {count : Nat} (n : Int)
    (hroom : m.heap.HasRoom (m.frames.length + count + 1)) :
    (m.newInteger n).2.heap.HasRoom ((m.newInteger n).2.frames.length + count) :=
  hroom.ofInteger n

/-- A fresh interpreter has room for objects and an exception. -/
theorem Machine.boot_hasRoom : boot.heap.HasRoom (boot.frames.length + 5) := by
  obtain ⟨heap, symbols, methods, hboot, -⟩ := boot_frame
  have hframes : boot.frames.length = 0 := by rw [hboot, List.length_nil]
  unfold Heap.HasRoom
  rw [boot_size, hframes]
  decide

/-! ### The remainder -/

namespace Arithmetic

/-- The remainder is smaller than the divisor in magnitude. -/
theorem abs_floorRemainder_lt (a : Int) (hb : b ≠ 0) : |floorRemainder a b| < |b| := by
  rcases Int.lt_or_gt_of_ne hb with hneg | hpos
  · obtain ⟨hlow, hhigh⟩ := floorRemainder_of_neg a hneg
    rw [abs_of_neg hneg, abs_of_nonpos hhigh]
    omega
  · obtain ⟨hlow, hhigh⟩ := floorRemainder_of_pos a hpos
    rw [abs_of_pos hpos, abs_of_nonneg hlow]
    exact hhigh

/-- The remainder is zero or has the sign of the divisor. -/
theorem sign_floorRemainder (a : Int) (hb : b ≠ 0) :
    floorRemainder a b = 0 ∨ (floorRemainder a b).sign = b.sign := by
  refine or_iff_not_imp_left.mpr fun hrest => ?_
  rcases Int.lt_or_gt_of_ne hb with hneg | hpos
  · have hbelow : floorRemainder a b < 0 :=
      lt_of_le_of_ne (floorRemainder_of_neg a hneg).2 hrest
    rw [Int.sign_eq_neg_one_of_neg hneg, Int.sign_eq_neg_one_of_neg hbelow]
  · have habove : 0 < floorRemainder a b :=
      lt_of_le_of_ne (floorRemainder_of_pos a hpos).1 (Ne.symm hrest)
    rw [Int.sign_eq_one_of_pos hpos, Int.sign_eq_one_of_pos habove]

/-- Quotient and remainder are given for the same operands. -/
theorem onInts_div_eq_some_iff :
    div.onInts a b = some n ↔ fits (a.tdiv b) = true ∧ floorQuotient a b = n := by
  simp [onInts, checked]

/-- The interpreter gives the remainder if it holds the quotient rounded toward zero. -/
theorem onInts_mod_eq_some_iff :
    mod.onInts a b = some n ↔ fits (a.tdiv b) = true ∧ floorRemainder a b = n := by
  simp [onInts, checked]

end Arithmetic

/-! ### The methods, by their names -/

namespace World

/-- The two objects are integers that the interpreter holds, and the first one has the operation as
the interpreter's own method. -/
structure Operands (w : World σ) (op : Arithmetic) (x y : Value) (a b : Int) : Prop where
  left : w.machine.heap.int? x = some a
  right : w.machine.heap.int? y = some b
  leftFits : fits a = true
  rightFits : fits b = true
  answers : w.machine.Answers (w.machine.heap.classOf x) op.name op.builtin
  room : w.RoomToRaise

namespace Operands

variable {op : Arithmetic}

/-- An operation has a value exactly if it is one on these integers, and then makes that integer. -/
theorem run_ok_iff (h : w.Operands op x y a b) (fuel : Nat) :
    (Reentry.ofFuel (fuel + 1)).sendNamed x op.name [y] w = .ok v w' ↔
      (op.divides = true → b ≠ 0) ∧
      ∃ n, op.onInts a b = some n ∧ Eval.onMachine (fun m => m.newInteger n) w = .ok v w' := by
  obtain ⟨method, hsend⟩ := Reentry.sendNamed_of_answers fuel h.answers [y]
  rw [hsend, Builtin.run_builtin]
  unfold Methods.arithmetic
  rw [bind_apply, Builtin.operands_apply rfl h.left h.right]
  by_cases hzero : op.divides = true ∧ b = 0
  · obtain ⟨hdivides, rfl⟩ := hzero
    simp [hdivides, raise_ne_ok]
  · have hdivisor : (op.divides && b == 0) = false := by simpa using hzero
    have hgoes : op.divides = true → b ≠ 0 := fun hdivides hb => hzero ⟨hdivides, hb⟩
    simp only [hdivisor, Bool.false_eq_true, if_false]
    cases hop : op.onInts a b with
    | none => simp [raise_ne_ok]
    | some n =>
        constructor
        · intro hmade
          exact ⟨hgoes, n, rfl, hmade⟩
        · rintro ⟨-, n', hn, hmade⟩
          cases hn
          exact hmade

/-- An operation comes to a value if its divisor is not zero and it gives a number. -/
theorem exists_ok_iff (h : w.Operands op x y a b) (fuel : Nat) :
    (∃ v w', (Reentry.ofFuel (fuel + 1)).sendNamed x op.name [y] w = .ok v w') ↔
      (op.divides = true → b ≠ 0) ∧ ∃ n, op.onInts a b = some n := by
  simp only [h.run_ok_iff fuel]
  constructor
  · rintro ⟨v, w', hgoes, n, hop, -⟩
    exact ⟨hgoes, n, hop⟩
  · rintro ⟨hgoes, n, hop⟩
    exact ⟨_, _, hgoes, n, hop, rfl⟩

/-- What is given is the integer that the operation is. -/
theorem holds_of_ok (h : w.Operands op x y a b) {fuel : Nat}
    (hrun : (Reentry.ofFuel (fuel + 1)).sendNamed x op.name [y] w = .ok v w') :
    ∃ n, op.onInts a b = some n ∧ w'.machine.heap.Holds v n := by
  obtain ⟨-, n, hop, hmade⟩ := (h.run_ok_iff fuel).mp hrun
  cases hmade
  exact ⟨n, hop, w.machine.holds_newInteger n h.room.addressable⟩

end Operands

/-- A new integer and one in a word can be operated on. -/
theorem operands_newInteger {m : Machine} {op : Arithmetic} (memory : σ)
    (hroom : m.heap.HasRoom (m.frames.length + 3 + 1))
    (hanswers : m.Answers CoreClass.integer.value op.name op.builtin)
    (ha : fits a = true) (hb : fixnumMin ≤ b ∧ b ≤ fixnumMax) :
    Operands { machine := (m.newInteger a).2, memory } op (m.newInteger a).1 (Value.ofFixnum b)
      a b where
  left := (m.newInteger_spec a hroom.addressable).2
  right := by
    unfold Heap.int?
    rw [Value.fixnum?_ofFixnum hb.1 hb.2]
  leftFits := ha
  rightFits := by
    rw [Integer.fits_iff]
    unfold fixnumMin fixnumMax at hb
    unfold minValue Integer.maxValue
    omega
  answers := by
    have hsteps : m.Steps (m.newInteger a).2 := .single (.integer _ _)
    rw [m.classOf_newInteger a hroom.addressable]
    exact hsteps.answers hanswers
  room := Machine.hasRoom_newInteger a hroom

/-- In a fresh interpreter a new integer and one in a word can be operated on. -/
theorem operands_fresh (op : Arithmetic) (ha : fits a = true)
    (hb : fixnumMin ≤ b ∧ b ≤ fixnumMax) :
    let made := Machine.boot.newInteger a
    let w : World Unit := { machine := made.2, memory := () }
    w.Operands op made.1 (Value.ofFixnum b) a b :=
  operands_newInteger () (Machine.boot_hasRoom.mono (by omega))
    (Machine.boot_answers op.ownMethod?_name) ha hb

/-- **Quotient and remainder belong together.**  They are both given for every divisor but zero, except
for the smallest integer by `-1`, of which the quotient is not held.  And then they are those of
rounding down. -/
theorem division_with_remainder {x' y' : Value} (hw : w.Operands .div x y a b)
    (hu : u.Operands .mod x' y' a b) (fuel fuel' : Nat) :
    let quotient := (Reentry.ofFuel (fuel + 1)).sendNamed x "/" [y] w
    let remainder := (Reentry.ofFuel (fuel' + 1)).sendNamed x' "%" [y'] u
    ((∃ q w', quotient = .ok q w') ∧ (∃ r u', remainder = .ok r u') ↔
      b ≠ 0 ∧ ¬(a = minValue ∧ b = -1)) ∧
    ∀ q w' r u', quotient = .ok q w' → remainder = .ok r u' →
      ∃ n m, w'.machine.heap.Holds q n ∧ u'.machine.heap.Holds r m ∧
        a = n * b + m ∧ |m| < |b| ∧ (m = 0 ∨ m.sign = b.sign) := by
  intro quotient remainder
  refine ⟨?_, fun q w' r u' hq hr => ?_⟩
  · have hquotient : (∃ q w', quotient = .ok q w') ↔ b ≠ 0 ∧ fits (a.tdiv b) = true := by
      refine (hw.exists_ok_iff fuel).trans ?_
      simp [Arithmetic.divides, Arithmetic.onInts_div_eq_some_iff]
    have hremainder : (∃ r u', remainder = .ok r u') ↔ b ≠ 0 ∧ fits (a.tdiv b) = true := by
      refine (hu.exists_ok_iff fuel').trans ?_
      simp [Arithmetic.divides, Arithmetic.onInts_mod_eq_some_iff]
    rw [hquotient, hremainder, and_self]
    exact and_congr_right fun hb => Integer.fits_tdiv_iff hw.leftFits hb
  · obtain ⟨n, hn, hholds⟩ := hw.holds_of_ok hq
    obtain ⟨m, hm, hholds'⟩ := hu.holds_of_ok hr
    have hb : b ≠ 0 := ((hw.run_ok_iff fuel).mp hq).1 rfl
    obtain ⟨-, rfl⟩ := Arithmetic.onInts_div_eq_some_iff.mp hn
    obtain ⟨-, rfl⟩ := Arithmetic.onInts_mod_eq_some_iff.mp hm
    exact ⟨_, _, hholds, hholds', (Arithmetic.floorQuotient_mul_add_floorRemainder a b).symm,
      Arithmetic.abs_floorRemainder_lt a hb, Arithmetic.sign_floorRemainder a hb⟩

/-- The smallest positive integer that needs a slot, by minus three: the quotient fits in a word. -/
theorem division_with_remainder_slot :
    let made := Machine.boot.newInteger 0x4000000000000000
    let w : World Unit := { machine := made.2, memory := () }
    let divisor := Value.ofFixnum (-3)
    w.Operands .div made.1 divisor 0x4000000000000000 (-3) ∧
      w.Operands .mod made.1 divisor 0x4000000000000000 (-3) ∧
      ∃ q w' r u', (Reentry.ofFuel 1).sendNamed made.1 "/" [divisor] w = .ok q w' ∧
        (Reentry.ofFuel 1).sendNamed made.1 "%" [divisor] w = .ok r u' ∧
        w'.machine.heap.Holds q (-0x1555555555555556) ∧ u'.machine.heap.Holds r (-2) := by
  intro made w divisor
  have hoperands : ∀ op : Arithmetic, w.Operands op made.1 divisor 0x4000000000000000 (-3) :=
    fun op => operands_fresh op (by decide) (by decide)
  obtain ⟨hgiven, hlaw⟩ := division_with_remainder (hoperands .div) (hoperands .mod) 0 0
  obtain ⟨⟨q, w', hq⟩, ⟨r, u', hr⟩⟩ := hgiven.mpr (by decide)
  obtain ⟨n, rest, hn, hrest, hsum, hsmall, hsign⟩ := hlaw q w' r u' hq hr
  have hbounds : -3 < rest ∧ rest < 3 := abs_lt.mp hsmall
  have hnegative : rest ≤ 0 := by
    rcases hsign with hzero | hsign
    · exact hzero.le
    · exact (Int.sign_eq_neg_one_iff_neg.mp hsign).le
  obtain ⟨rfl, rfl⟩ : n = -0x1555555555555556 ∧ rest = -2 := by omega
  exact ⟨hoperands .div, hoperands .mod, q, w', r, u', hq, hr, hn, hrest⟩

end World

end EmbeddedRuby
