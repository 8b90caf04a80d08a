import EmbeddedRuby.Proofs.HeldLiterals
import EmbeddedRuby.Proofs.WrittenIntegers

/-!
# The lenient reader where the strict one reads

`String#to_i` and `Integer()` read a string in two ways that have nothing in common.  The lenient
reader goes forward over the text and takes the longest front that looks like a decimal number; the
strict one looks at the whole of it and knows radix marks as well.  What the lenient reader takes of a
text that the strict one accepts is therefore not the same in general: of `0x1f` it takes the zero.

Without a radix mark the text that the strict reader accepts is decimal, and then its sign and its
digits are just the front that the lenient reader takes (`Integer.NumberText.frontParts`).  So the two
give the same integer, and since both make a new object of it, the same object
(`Reentry.to_i_of_accepted`).
-/

namespace EmbeddedRuby

namespace Integer

variable {text digits : List Char} {places : List Nat} {sign : Option Char} {n : Int}

/-- After blanks and a sign, if there is one, the text goes on with a radix mark. -/
def HasRadixMark (text : List Char) : Prop :=
  ∃ (before : List Char) (sign : Option Char) (mark : List Char) (radix : Nat) (rest : List Char),
    (∀ c ∈ before, Text.isBlank c = true) ∧ (∀ c ∈ sign, c = '+' ∨ c = '-') ∧
    RadixMark mark radix ∧ mark ≠ [] ∧ text = before ++ (sign.toList ++ (mark ++ rest))

/-- The mark is seen by the one who leaves the blanks and the sign away. -/
theorem hasRadixMark_iff :
    HasRadixMark text ↔ (splitRadix (splitSign (Text.trimStart text)).2).1 ≠ 10 := by
  constructor
  · rintro ⟨before, sign, mark, radix, rest, hbefore, hsign, hmark, hsome, rfl⟩
    have hfirst : ∃ c more, mark ++ rest = '0' :: c :: more := by
      cases hmark with
      | none => exact absurd rfl hsome
      | hexadecimal hc | binary hc | octal hc => exact ⟨_, rest, rfl⟩
    obtain ⟨c, more, hcons⟩ := hfirst
    have htrim : Text.trimStart (before ++ (sign.toList ++ (mark ++ rest))) =
        sign.toList ++ (mark ++ rest) := by
      unfold Text.trimStart
      rw [List.dropWhile_append_of_pos hbefore]
      cases sign with
      | none =>
          rw [hcons]
          rfl
      | some s => exact Text.trimStart_cons (sign_classes (hsign s rfl)).2.1 (mark ++ rest)
    have hsplit : (splitSign (sign.toList ++ (mark ++ rest))).2 = mark ++ rest := by
      rw [hcons, splitSign_append hsign (by decide)]
    rw [htrim, hsplit]
    cases hmark with
    | none => exact absurd rfl hsome
    | hexadecimal hc => rcases hc with rfl | rfl <;> simp [splitRadix]
    | binary hc => rcases hc with rfl | rfl <;> simp [splitRadix]
    | octal hc => rcases hc with rfl | rfl <;> simp [splitRadix]
  · intro hradix
    obtain ⟨sign, tail, hsign, hsplit, htail⟩ := exists_sign_of_splitSign (Text.trimStart text)
    obtain ⟨mark, radix, rest, hmark, hread, hrest⟩ := exists_mark_of_splitRadix tail
    rw [hsplit, hread] at hradix
    refine ⟨text.takeWhile Text.isBlank, sign, mark, radix, rest,
      fun c hc => List.mem_takeWhile_imp hc, hsign, hmark, ?_, ?_⟩
    · rintro rfl
      cases hmark
      exact hradix rfl
    · rw [← hrest, ← htail]
      exact List.takeWhile_append_dropWhile.symm

instance (text : List Char) : Decidable (HasRadixMark text) :=
  decidable_of_iff _ hasRadixMark_iff.symm

/-- Both readers give decimal digits the same value. -/
theorem SpacedDigits.runValue_eq (h : SpacedDigits 10 digits places) :
    runValue digits = placeValue 10 places := by
  have hlenient : Numeral.ofDigitsFrom 10 0 (dropUnderscores digits) = some (runValue digits) := by
    rw [dropUnderscores_run h.isRunChar]
    exact ofDigitsFrom_of_digits (fun c hc => (List.mem_filter.mp hc).2) 0
  have hstrict : Numeral.ofDigitsFrom 10 0 (dropUnderscores digits) =
      some (placeValue 10 places) := by
    rw [placeValue_eq_foldl]
    exact h.read (by decide) 0
  exact Option.some.inj (hlenient.symm.trans hstrict)

/-- No number goes on with a blank. -/
theorem isRunChar_of_isBlank {c : Char} (hc : Text.isBlank c = true) : isRunChar c = false := by
  have hdigit : Text.isDigit c = false := by
    by_contra hnot
    rw [Text.isBlank_of_isDigit (by simpa using hnot)] at hc
    cases hc
  have hmark : c ≠ '_' := by
    rintro rfl
    cases hc
  simp [isRunChar, hdigit, hmark]

/-- **The number of a whole text is the number at its front**, if it has no radix mark. -/
theorem NumberText.frontParts (h : NumberText text sign [] 10 places) :
    ∃ digits, FrontParts text sign digits ∧ runValue digits = placeValue 10 places := by
  obtain ⟨before, digits, after, hbefore, hdigits, hafter, htext⟩ := h.parts
  obtain ⟨c, rest, d, hcons, hc, hd⟩ := hdigits.head
  have hfirst : digits.head?.any Text.isDigit = true := by
    rw [hcons]
    exact (hc.decimal hd).1
  have hstop : ∀ c ∈ after.head?, isRunChar c = false :=
    fun c hmem => isRunChar_of_isBlank (hafter c (List.mem_of_head? hmem))
  refine ⟨digits, ⟨h.signs, hfirst, hdigits.isRunChar, before, after, hbefore, hstop, ?_⟩,
    hdigits.runValue_eq⟩
  rw [htext, List.nil_append, List.append_assoc]

/-- A number without a radix mark is decimal. -/
theorem NumberText.decimal {mark : List Char} {radix : Nat}
    (h : NumberText text sign mark radix places) (hnone : ¬HasRadixMark text) :
    mark = [] ∧ radix = 10 := by
  obtain ⟨before, digits, after, hbefore, hdigits, hafter, htext⟩ := h.parts
  have hmark : mark = [] := by
    by_contra hsome
    refine hnone ⟨before, sign, mark, radix, digits ++ after, hbefore, h.signs, h.marks, hsome, ?_⟩
    rw [htext]
    simp only [List.append_assoc]
  subst hmark
  cases h.marks
  exact ⟨rfl, rfl⟩

/-- Where the strict reader accepts a text without a radix mark, the lenient one reads the same. -/
theorem ofFront_eq_of_parse? (hnone : ¬HasRadixMark text) (h : parse? text = some n) :
    ofFront text = n := by
  have hfits : fits n = true := (fits_of_parse? h).1
  obtain ⟨sign, mark, radix, places, hparts, -, rfl⟩ := parse?_eq_some_iff.mp h
  obtain ⟨rfl, rfl⟩ := hparts.decimal hnone
  obtain ⟨digits, hfront, hvalue⟩ := hparts.frontParts
  rw [hfront.ofFront_eq, hvalue, checked_of_fits hfits, Option.getD_some]

end Integer

namespace Reentry

open Eval Integer

variable {σ : Type} (r : Reentry σ) {w w' : World σ} {s v : Value} {bytes : List UInt8}

/-- A string that `Integer()` accepts is one that the strict reader reads. -/
theorem exists_parse?_of_toInteger (hbytes : w.machine.heap.bytes? s = some bytes)
    (haccepted : r.toInteger s w = .ok v w') :
    ∃ n, parse? (Utf8.decodeLossy bytes) = some n ∧
      (onMachine fun m => m.newInteger n) w = .ok v w' := by
  rw [r.toInteger_string_apply hbytes] at haccepted
  split at haccepted
  · rename_i n hread
    exact ⟨n, hread, haccepted⟩
  · exact absurd haccepted raise_ne_ok

/-- **The lenient reader agrees with the strict one.**  If `Integer()` accepts a string that has no
radix mark, then `to_i` of the string gives the same integer: it comes to the same object, and the
interpreter is the same afterwards.  That is so however the method is called, by the number of the
method or by its name, and for every magnitude, since both readers then read the same integer. -/
theorem to_i_of_accepted (hbytes : w.machine.heap.bytes? s = some bytes)
    (hnone : ¬HasRadixMark (Utf8.decodeLossy bytes)) (haccepted : r.toInteger s w = .ok v w') :
    CoreClass.string.ownMethod? "to_i" = some .stringToI ∧
    (∃ n, parse? (Utf8.decodeLossy bytes) = some n ∧ ofFront (Utf8.decodeLossy bytes) = n ∧
      (w.machine.heap.Addressable → w'.machine.heap.int? v = some n)) ∧
    (∀ (r' : Reentry σ) (call : Call σ), call.receiver = s →
      Builtin.run r' .stringToI call w = .ok v w') ∧
    ∀ fuel, w.machine.Answers (w.machine.heap.classOf s) "to_i" .stringToI →
      (Reentry.ofFuel (fuel + 1)).sendNamed s "to_i" [] w = .ok v w' := by
  obtain ⟨n, hread, hmade⟩ := r.exists_parse?_of_toInteger hbytes haccepted
  have hsame : ofFront (Utf8.decodeLossy bytes) = n := ofFront_eq_of_parse? hnone hread
  have hrun : ∀ (r' : Reentry σ) (call : Call σ), call.receiver = s →
      Builtin.run r' .stringToI call w = .ok v w' := by
    intro r' call hreceiver
    have hcall : w.machine.heap.bytes? call.receiver = some bytes := by rw [hreceiver, hbytes]
    rw [r'.stringToI_apply hcall, hsame]
    exact hmade
  refine ⟨by decide +kernel, ⟨n, hread, hsame, fun hroom => ?_⟩, hrun, fun fuel hanswers => ?_⟩
  · obtain ⟨v', w'', hgiven, -, hnumber⟩ := givesInteger_newInteger hroom n
    rw [hmade] at hgiven
    cases hgiven
    exact hnumber
  · obtain ⟨method, hsend⟩ := Reentry.sendNamed_of_answers fuel hanswers []
    rw [hsend]
    exact hrun _ _ rfl

/-- Blanks, a sign, leading zeros and an underscore do no harm, nor do thirty-nine digits. -/
theorem to_i_of_accepted_largest :
    let text := " -00_170141183460469231731687303715884105727\n".toList
    ∃ (w : World Unit) (s v : Value) (w' : World Unit),
      w.machine.heap.bytes? s = some (Utf8.encode text) ∧
      ¬HasRadixMark (Utf8.decodeLossy (Utf8.encode text)) ∧
      (Reentry.toInteger (.ofFuel 1) s) w = .ok v w' ∧
      w'.machine.heap.int? v = some (-maxValue) ∧
      (Reentry.ofFuel 2).sendNamed s "to_i" [] w = .ok v w' := by
  intro text
  have haddressable : Machine.boot.heap.Addressable := by
    unfold Heap.Addressable
    rw [Machine.boot_size]
    decide
  have hslot := Machine.slot?_newText haddressable text
  obtain ⟨made, hmade⟩ : ∃ made, made = Machine.boot.newText (String.ofList text) := ⟨_, rfl⟩
  have hsteps : Machine.boot.Steps made.2 := by
    rw [hmade]
    exact .single (.string _ _)
  rw [← hmade] at hslot
  let w : World Unit := { machine := made.2, memory := () }
  have hroom : made.2.heap.Addressable := by
    have hsize : made.2.heap.slots.size = CoreClass.all.length + 1 := by
      rw [hmade, ← Machine.boot_size]
      exact Array.size_push _
    unfold Heap.Addressable
    rw [hsize]
    decide
  have hbytes : w.machine.heap.bytes? made.1 = some (Utf8.encode text) := by
    unfold Heap.bytes?
    rw [Heap.body?_of_slot? hslot]
  have hanswers : w.machine.Answers (w.machine.heap.classOf made.1) "to_i" .stringToI := by
    have hown : CoreClass.string.ownMethod? "to_i" = some .stringToI := by decide +kernel
    rw [Heap.classOf_of_slot? hslot]
    exact hsteps.answers (Machine.boot_answers hown)
  have hnone : ¬HasRadixMark (Utf8.decodeLossy (Utf8.encode text)) := by decide +kernel
  have hread : parse? (Utf8.decodeLossy (Utf8.encode text)) = some (-maxValue) := by
    decide +kernel
  have haccepted := toInteger_string_apply (.ofFuel 1) hbytes
  rw [hread] at haccepted
  obtain ⟨-, ⟨n, hn, -, hnumber⟩, -, hsent⟩ := to_i_of_accepted (.ofFuel 1) hbytes hnone haccepted
  rw [hread, Option.some.injEq] at hn
  subst hn
  exact ⟨w, made.1, _, _, hbytes, hnone, haccepted, hnumber hroom, hsent 1 hanswers⟩

end Reentry

end EmbeddedRuby
