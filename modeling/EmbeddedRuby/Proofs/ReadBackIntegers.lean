import EmbeddedRuby.Proofs.FlooredDivision
import EmbeddedRuby.Proofs.HeldLiterals
import EmbeddedRuby.Proofs.Utf8
import EmbeddedRuby.Proofs.WrittenIntegers

/-!
# Integers that are written and read again

Arithmetic leads from the integers in words to every integer that the interpreter holds, and to no other
(`Integer.computed_iff`): a large one is put together out of a quotient and a remainder by `2 ^ 61`,
with a product and a sum that do not leave the range either.

`to_s` writes each of them in decimal, with the sign in front.  `Integer()` reads the digits before it
looks at the sign, and the digits of the smallest integer are no integer of their own.  So it gives the
same integer for all but this one, which it refuses (`Reentry.written_integer_read_back_iff`).
-/

namespace EmbeddedRuby

open Eval
open Integer (minValue maxValue fits)

/-! ### What arithmetic leads to -/

namespace Integer

/-- Arithmetic leads to the integer: it fits in a word, or the interpreter's own methods give it for
integers that arithmetic leads to. -/
inductive Computed : Int → Prop
  | word {n : Int} (hword : fixnumMin ≤ n ∧ n ≤ fixnumMax) : Computed n
  | operation {op : Arithmetic} {w w' : World Unit} {x y v : Value} {a b n : Int} {fuel : Nat}
      (ha : Computed a) (hb : Computed b) (hw : w.Operands op x y a b)
      (hrun : (Reentry.ofFuel (fuel + 1)).sendNamed x op.name [y] w = .ok v w')
      (hn : w'.machine.heap.int? v = some n) : Computed n
  | opposite {w w' : World Unit} {call : Call Unit} {v : Value} {a n : Int} {fuel : Nat}
      (ha : Computed a) (hreceiver : w.machine.heap.int? call.receiver = some a)
      (hroom : w.machine.heap.Addressable)
      (hrun : Builtin.run (.ofFuel fuel) .negate call w = .ok v w')
      (hn : w'.machine.heap.int? v = some n) : Computed n

variable {a b n : Int}

theorem fits_of_word (hword : fixnumMin ≤ n ∧ n ≤ fixnumMax) : fits n = true := by
  rw [fits_iff]
  unfold fixnumMin fixnumMax at hword
  unfold minValue maxValue
  omega

/-- What an operation gives for integers that are held is held. -/
theorem fits_onInts {op : Arithmetic} (ha : fits a = true) (hb : fits b = true)
    (hdivisor : op.divides = true → b ≠ 0) (hgiven : op.onInts a b = some n) : fits n = true := by
  obtain ⟨exact, hexact⟩ : ∃ exact, op.exactResult? a b = some exact := by
    rw [← Option.ne_none_iff_exists', ne_eq, Arithmetic.exactResult?_eq_none_iff]
    rintro ⟨hdivides, hzero⟩
    exact hdivisor hdivides hzero
  rw [Arithmetic.onInts_eq ha hb hexact] at hgiven
  obtain ⟨⟨hfits, -⟩, hsame⟩ := Option.ite_none_right_eq_some.mp hgiven
  cases hsame
  exact hfits

/-- Arithmetic does not lead out of what is held. -/
theorem Computed.fits (h : Computed n) : fits n = true := by
  induction h with
  | word hword => exact fits_of_word hword
  | operation ha hb hw hrun hn iha ihb =>
      obtain ⟨hdivisor, -⟩ := (hw.run_ok_iff _).mp hrun
      obtain ⟨k, hgiven, hholds⟩ := hw.holds_of_ok hrun
      cases hholds.number.symm.trans hn
      exact fits_onInts iha ihb hdivisor hgiven
  | @opposite w w' call v a n fuel ha hreceiver hroom hrun hn ih =>
      have hmin : a ≠ minValue := by
        rintro rfl
        rw [Builtin.negated_minValue _ hreceiver] at hrun
        cases hrun
      obtain ⟨v', w'', hgiven, -, hnumber⟩ :=
        Builtin.negated_hasOutcome (.ofFuel fuel) hreceiver hmin hroom
      cases hrun.symm.trans hgiven
      cases hnumber.symm.trans hn
      exact (fits_neg_iff ih).mpr hmin

/-- An operation is carried out on an integer that arithmetic leads to and one in a word. -/
theorem Computed.operate (op : Arithmetic) (ha : Computed a)
    (hb : fixnumMin ≤ b ∧ b ≤ fixnumMax) (hdivisor : op.divides = true → b ≠ 0)
    (hgiven : op.onInts a b = some n) : Computed n := by
  have hw := World.operands_fresh op ha.fits hb
  obtain ⟨v, w', hrun⟩ := (hw.exists_ok_iff 0).mpr ⟨hdivisor, n, hgiven⟩
  obtain ⟨k, hk, hholds⟩ := hw.holds_of_ok hrun
  cases hk.symm.trans hgiven
  exact .operation ha (.word hb) hw hrun hholds.number

/-- Every integer that is held comes of a smaller quotient by a product and a sum. -/
theorem computed_of_fits {n : Int} (hfits : fits n = true) : Computed n := by
  by_cases hword : fixnumMin ≤ n ∧ n ≤ fixnumMax
  · exact .word hword
  · have hbounds := fits_iff.mp hfits
    unfold minValue maxValue at hbounds
    unfold fixnumMin fixnumMax at hword
    let quotient := n / 0x2000000000000000
    let remainder := n % 0x2000000000000000
    have hquotient : fits quotient = true := by
      rw [fits_iff]
      unfold minValue maxValue
      omega
    have hsmaller : quotient.natAbs < n.natAbs := by omega
    have hproduct : fits (quotient * 0x2000000000000000) = true := by
      rw [fits_iff]
      unfold minValue maxValue
      omega
    have hsum : quotient * 0x2000000000000000 + remainder = n := by omega
    have hcomputed : Computed (quotient * 0x2000000000000000) :=
      (computed_of_fits hquotient).operate .mul (by decide) nofun (checked_of_fits hproduct)
    refine hcomputed.operate .add (b := remainder) ?_ nofun ?_
    · unfold fixnumMin fixnumMax
      omega
    · show checked (quotient * 0x2000000000000000 + remainder) = some n
      rw [hsum, checked_of_fits hfits]
termination_by n.natAbs

/-- Arithmetic leads exactly to what the interpreter holds. -/
theorem computed_iff : Computed n ↔ fits n = true :=
  ⟨Computed.fits, computed_of_fits⟩

/-- What is held is read again from its decimal text, except for the smallest integer. -/
theorem parse?_decimalInt_of_fits (hfits : fits n = true) :
    parse? (Numeral.decimalInt n) = if n = minValue then none else some n := by
  have hmagnitude : n.natAbs < 2 ^ 127 ↔ n ≠ minValue := by
    rw [fits_iff] at hfits
    unfold minValue maxValue at hfits
    unfold minValue
    omega
  rw [parse?_decimalInt_eq]
  simp only [hmagnitude, ite_not]

end Integer

/-! ### Writing and reading -/

namespace Reentry

variable {σ : Type} {w : World σ} {v s : Value} {n : Int}

/-- An integer is written in decimal. -/
theorem numberToS_apply (r : Reentry σ) {call : Call σ}
    (hn : w.machine.heap.int? call.receiver = some n) :
    Builtin.run r .numberToS call w = newText (String.ofList (Numeral.decimalInt n)) w := by
  show Methods.numberText call w = _
  unfold Methods.numberText
  rw [machine_bind_apply, Number.of?_of_int? hn]
  rfl

/-- `Integer()` of a decimal text gives the integer or refuses it. -/
theorem toInteger_decimal_hasOutcome (r : Reentry σ) (hfits : fits n = true)
    (hbytes : w.machine.heap.bytes? s = some (Utf8.encode (Numeral.decimalInt n)))
    (hroom : w.RoomToRaise) :
    (r.toInteger s).HasOutcome w
      (if n = minValue then .error .argumentError else .ok n) := by
  have houtcome := r.toInteger_string_hasOutcome hbytes hroom
  rw [Utf8.decodeLossy_encode, Integer.parse?_decimalInt_of_fits hfits] at houtcome
  by_cases hmin : n = minValue
  · simpa [hmin] using houtcome
  · simpa [hmin] using houtcome

/-- **All integers but the smallest are read as they are written.**  Arithmetic leads to the integers
that are held.  `to_s` gives the decimal text of each of them; `Integer()` of this text gives the same
integer again if it is not the smallest, and for the smallest it raises an `ArgumentError`. -/
theorem written_integer_read_back_iff (hn : w.machine.heap.int? v = some n)
    (hcomputed : Integer.Computed n)
    (hanswers : w.machine.Answers (w.machine.heap.classOf v) "to_s" .numberToS)
    (hroom : w.machine.heap.HasRoom (w.machine.frames.length + 4)) (r : Reentry σ) (fuel : Nat) :
    (∀ k, Integer.Computed k ↔ fits k = true) ∧
    ∃ s w', (Reentry.ofFuel (fuel + 1)).sendNamed v "to_s" [] w = .ok s w' ∧
      w'.machine.heap.bytes? s = some (Utf8.encode (Numeral.decimalInt n)) ∧
      ((r.toInteger s).GivesInteger w' n ↔ n ≠ minValue) ∧
      ((r.toInteger s).Raises w' .argumentError ↔ n = minValue) := by
  refine ⟨fun k => Integer.computed_iff, ?_⟩
  obtain ⟨method, hsend⟩ := Reentry.sendNamed_of_answers fuel hanswers []
  have hleft : w.machine.heap.HasRoom (w.machine.frames.length + 3 + 1) := hroom
  have hslot := Machine.slot?_newText hleft.addressable (Numeral.decimalInt n)
  let text := w.machine.newText (String.ofList (Numeral.decimalInt n))
  let w' : World σ := { w with machine := text.2 }
  have hbytes : w'.machine.heap.bytes? text.1 = some (Utf8.encode (Numeral.decimalInt n)) := by
    unfold Heap.bytes?
    rw [Heap.body?_of_slot? hslot]
  have hroom' : w'.RoomToRaise := hleft.alloc _ _
  have houtcome := r.toInteger_decimal_hasOutcome hcomputed.fits hbytes hroom'
  refine ⟨text.1, w', ?_, hbytes, ?_, ?_⟩
  · rw [hsend, numberToS_apply _ hn]
    rfl
  · rw [houtcome.gives_iff]
    split <;> simp [*]
  · rw [houtcome.raises_iff]
    split <;> simp [*]

/-- The smallest integer is written and then refused. -/
theorem written_integer_read_back_iff_least :
    let made := Machine.boot.newInteger minValue
    let w : World Unit := { machine := made.2, memory := () }
    w.machine.heap.int? made.1 = some minValue ∧ Integer.Computed minValue ∧
      w.machine.Answers (w.machine.heap.classOf made.1) "to_s" .numberToS ∧
      w.machine.heap.HasRoom (w.machine.frames.length + 4) ∧
      ∃ s w', (Reentry.ofFuel 1).sendNamed made.1 "to_s" [] w = .ok s w' ∧
        w'.machine.heap.bytes? s = some (Utf8.encode (Numeral.decimalInt minValue)) ∧
        ((Reentry.ofFuel 1).toInteger s).Raises w' .argumentError ∧
        ¬((Reentry.ofFuel 1).toInteger s).GivesInteger w' minValue := by
  intro made w
  have hroom : Machine.boot.heap.HasRoom (Machine.boot.frames.length + 4 + 1) :=
    Machine.boot_hasRoom.mono (by omega)
  have hn : w.machine.heap.int? made.1 = some minValue :=
    (Machine.boot.newInteger_spec minValue hroom.addressable).2
  have hcomputed : Integer.Computed minValue := Integer.computed_of_fits (by decide)
  have hanswers : w.machine.Answers (w.machine.heap.classOf made.1) "to_s" .numberToS := by
    have hown : CoreClass.integer.ownMethod? "to_s" = some .numberToS := by decide +kernel
    have hsteps : Machine.boot.Steps made.2 := .single (.integer _ _)
    rw [Machine.boot.classOf_newInteger minValue hroom.addressable]
    exact hsteps.answers (Machine.boot_answers hown)
  have hleft : w.machine.heap.HasRoom (w.machine.frames.length + 4) :=
    Machine.hasRoom_newInteger minValue hroom
  obtain ⟨-, s, w', hwritten, hbytes, hgives, hraises⟩ :=
    written_integer_read_back_iff hn hcomputed hanswers hleft (.ofFuel 1) 0
  exact ⟨hn, hcomputed, hanswers, hleft, s, w', hwritten, hbytes, hraises.mpr rfl,
    fun h => hgives.mp h rfl⟩

end Reentry

end EmbeddedRuby
