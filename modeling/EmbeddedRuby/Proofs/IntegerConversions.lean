import EmbeddedRuby.Proofs.IntegerArithmetic
import EmbeddedRuby.Proofs.SixtyFourBits
import EmbeddedRuby.Proofs.Tokens
import EmbeddedRuby.Proofs.Utf8
import Mathlib.Data.List.TakeWhile

/-!
# Conversions to integers

Floats and texts can name integers that the interpreter does not hold.  What the conversions make of
them is compared with the exact integer: for a float its integer part, for a text the number at its
front (`Integer.FrontNumber`): blanks, at most one sign, and a run of digits and underscores that
goes as far as it can; if there is none, zero.

No conversion raises over the size of the integer.  One that the interpreter holds is given exactly;
of one that is too large, a float becomes the nearest integer that is held, and a text becomes zero.
So exactly the integers that are held are never replaced by another: that is the main statement,
`integer_conversions`.
-/

namespace EmbeddedRuby

open Integer (minValue maxValue fits checked saturate)

/-! ### Numbers at the front of a text -/

namespace Integer

/-- May a number go on with this character? -/
def isRunChar (c : Char) : Bool :=
  Text.isDigit c || c == '_'

/-- The number that the digits of a run write; underscores do not count. -/
def runValue (run : List Char) : Nat :=
  (run.filter Text.isDigit).foldl (fun value c => 10 * value + (c.toNat - 0x30)) 0

/-- The number with a sign in front of it. -/
def signed (sign : Option Char) (magnitude : Nat) : Int :=
  if sign = some '-' then -(magnitude : Int) else magnitude

/-- The text consists of blanks, a sign or none, a run that starts with a digit, and a rest with
which the run does not go on. -/
structure FrontParts (text : List Char) (sign : Option Char) (run : List Char) : Prop where
  signs : ∀ c ∈ sign, c = '+' ∨ c = '-'
  first : run.head?.any Text.isDigit = true
  chars : ∀ c ∈ run, isRunChar c = true
  parts : ∃ blanks rest, (∀ c ∈ blanks, Text.isBlank c = true) ∧
    (∀ c ∈ rest.head?, isRunChar c = false) ∧ text = blanks ++ (sign.toList ++ (run ++ rest))

/-- The integer at the front of the text, however large; zero if no number is there. -/
inductive FrontNumber (text : List Char) : Int → Prop
  | number {sign : Option Char} {run : List Char} (h : FrontParts text sign run) :
      FrontNumber text (signed sign (runValue run))
  | none (hnone : ∀ sign run, ¬FrontParts text sign run) : FrontNumber text 0

variable {text run rest : List Char} {sign : Option Char} {c : Char}

/-- A digit stands for its distance from zero. -/
theorem digitIn?_of_isDigit (hc : Text.isDigit c = true) :
    Numeral.digitIn? 10 c = some (c.toNat - 0x30) := by
  simp only [Text.isDigit, Bool.and_eq_true, decide_eq_true_eq] at hc
  have hten : c.toNat - 48 < 10 := by omega
  simp [Numeral.digitIn?, Numeral.digitValue?, hc, hten]

/-- Digits have the value that they have by their places. -/
theorem ofDigitsFrom_of_digits (htext : ∀ c ∈ text, Text.isDigit c = true) (acc : Nat) :
    Numeral.ofDigitsFrom 10 acc text =
      some (text.foldl (fun value c => 10 * value + (c.toNat - 0x30)) acc) := by
  induction text generalizing acc with
  | nil => rfl
  | cons c rest ih =>
      rw [Numeral.ofDigitsFrom, digitIn?_of_isDigit (htext c List.mem_cons_self), Option.bind_some,
        ih (fun d hd => htext d (List.mem_cons_of_mem c hd)), List.foldl_cons, Nat.mul_comm acc 10]

/-- A run without its underscores consists of its digits. -/
theorem dropUnderscores_run (hrun : ∀ c ∈ run, isRunChar c = true) :
    dropUnderscores run = run.filter Text.isDigit := by
  unfold dropUnderscores
  apply List.filter_congr
  intro c hc
  have hchar := hrun c hc
  unfold isRunChar at hchar
  by_cases hmark : c = '_'
  · subst hmark
    decide
  · have hdigit : Text.isDigit c = true := by simpa [hmark] using hchar
    simp [hdigit, hmark]

/-- A sign is neither a digit nor an underscore nor a blank. -/
theorem sign_classes (hsign : c = '+' ∨ c = '-') :
    Text.isDigit c = false ∧ Text.isBlank c = false ∧ c ≠ '_' := by
  rcases hsign with rfl | rfl <;> decide

/-- What starts with a digit is a digit and what comes after it. -/
theorem exists_cons_of_first (hfirst : run.head?.any Text.isDigit = true) :
    ∃ c more, run = c :: more ∧ Text.isDigit c = true := by
  cases run with
  | nil => cases hfirst
  | cons c more => exact ⟨c, more, rfl, by simpa using hfirst⟩

/-- The run is found where the text starts with it. -/
theorem digitsFront_append (hfirst : run.head?.any Text.isDigit = true)
    (hrun : ∀ c ∈ run, isRunChar c = true) (hrest : ∀ c ∈ rest.head?, isRunChar c = false) :
    digitsFront (run ++ rest) = run := by
  obtain ⟨c, more, rfl, hdigit⟩ := exists_cons_of_first hfirst
  have hmore : ∀ d ∈ more, isRunChar d = true := fun d hd => hrun d (List.mem_cons_of_mem c hd)
  have hstop : rest.takeWhile isRunChar = [] := by
    cases rest with
    | nil => rfl
    | cons d rest => simp [hrest d rfl]
  show (if Text.isDigit c = true then c :: (more ++ rest).takeWhile isRunChar else []) = _
  rw [if_pos hdigit, List.takeWhile_append_of_pos hmore, hstop, List.append_nil]

/-- The front of the text that looks like a number is the sign and the run. -/
theorem FrontParts.numberFront_eq (h : FrontParts text sign run) :
    numberFront (Text.trimStart text) = sign.toList ++ run := by
  obtain ⟨blanks, rest, hblanks, hrest, rfl⟩ := h.parts
  have hfront := digitsFront_append h.first h.chars hrest
  have htrim : Text.trimStart (blanks ++ (sign.toList ++ (run ++ rest))) =
      Text.trimStart (sign.toList ++ (run ++ rest)) := by
    unfold Text.trimStart
    rw [List.dropWhile_append_of_pos hblanks]
  rw [htrim]
  cases sign with
  | some s =>
      have hs := h.signs s rfl
      show numberFront (Text.trimStart (s :: (run ++ rest))) = s :: run
      rw [Text.trimStart_cons (sign_classes hs).2.1, numberFront, if_pos hs, hfront]
  | none =>
      obtain ⟨c, more, rfl, hdigit⟩ := exists_cons_of_first h.first
      have hno : ¬(c = '+' ∨ c = '-') := by
        intro hc
        rw [(sign_classes hc).1] at hdigit
        cases hdigit
      show numberFront (Text.trimStart (c :: (more ++ rest))) = c :: more
      rw [Text.trimStart_cons (Text.isBlank_of_isDigit hdigit), numberFront, if_neg hno]
      exact hfront

/-- There is no sign to split from a digit. -/
theorem splitSign_of_isDigit (hc : Text.isDigit c = true) (rest : List Char) :
    splitSign (c :: rest) = (false, c :: rest) := by
  unfold splitSign
  split
  · rename_i heq
    cases heq
    exact absurd hc (by decide)
  · rename_i heq
    cases heq
    exact absurd hc (by decide)
  · rfl

/-- Sign and digits of the number at the front. -/
theorem FrontParts.splitSign_eq (h : FrontParts text sign run) :
    splitSign (dropUnderscores (numberFront (Text.trimStart text))) =
      (decide (sign = some '-'), run.filter Text.isDigit) := by
  rw [h.numberFront_eq]
  unfold dropUnderscores
  rw [List.filter_append]
  have hrun := dropUnderscores_run h.chars
  unfold dropUnderscores at hrun
  rw [hrun]
  cases sign with
  | some s =>
      rcases h.signs s rfl with rfl | rfl
      · rfl
      · rfl
  | none =>
      obtain ⟨c, more, rfl, hdigit⟩ := exists_cons_of_first h.first
      simp only [Option.toList_none, List.filter_nil, List.nil_append, List.filter_cons, hdigit,
        if_true]
      exact splitSign_of_isDigit hdigit _

/-- What is read from a number at the front of the text. -/
theorem FrontParts.ofFront_eq (h : FrontParts text sign run) :
    ofFront text = (checked (signed sign (runValue run))).getD 0 := by
  have hdigits : ∀ c ∈ run.filter Text.isDigit, Text.isDigit c = true :=
    fun c hc => (List.mem_filter.mp hc).2
  have hsome : run.filter Text.isDigit ≠ [] := by
    obtain ⟨c, more, rfl, hdigit⟩ := exists_cons_of_first h.first
    simp [hdigit]
  unfold ofFront
  rw [h.splitSign_eq]
  simp only [hsome, if_false, Numeral.ofDigits?, ofDigitsFrom_of_digits hdigits]
  unfold signed runValue
  simp only [decide_eq_true_eq]

/-- Where a front with a digit is found, the text has the parts of a number. -/
theorem frontParts_of_digitsFront {blanks tail : List Char} (hsign : ∀ c ∈ sign, c = '+' ∨ c = '-')
    (hblanks : ∀ c ∈ blanks, Text.isBlank c = true) (hsome : digitsFront tail ≠ [])
    (htext : text = blanks ++ (sign.toList ++ tail)) :
    FrontParts text sign (digitsFront tail) := by
  cases tail with
  | nil => exact absurd rfl hsome
  | cons c more =>
      by_cases hdigit : Text.isDigit c = true
      · have hfront : digitsFront (c :: more) = c :: more.takeWhile isRunChar := if_pos hdigit
        rw [hfront]
        refine ⟨hsign, by simpa using hdigit, ?_, blanks, more.dropWhile isRunChar, hblanks, ?_, ?_⟩
        · intro d hd
          rcases List.mem_cons.mp hd with rfl | hd
          · simp [isRunChar, hdigit]
          · exact List.mem_takeWhile_imp hd
        · intro d hd
          have hstop := List.head?_dropWhile_not isRunChar more
          rw [Option.mem_def] at hd
          rw [hd] at hstop
          simpa using hstop
        · rw [htext, List.cons_append, List.takeWhile_append_dropWhile]
      · exact absurd (if_neg hdigit) hsome

/-- Where there is no number, zero is read. -/
theorem ofFront_of_none (hnone : ∀ sign run, ¬FrontParts text sign run) : ofFront text = 0 := by
  have hblanks : ∀ c ∈ text.takeWhile Text.isBlank, Text.isBlank c = true :=
    fun c hc => List.mem_takeWhile_imp hc
  have htext : text = text.takeWhile Text.isBlank ++ Text.trimStart text :=
    List.takeWhile_append_dropWhile.symm
  have hempty : numberFront (Text.trimStart text) = [] ∨
      ∃ s, (s = '+' ∨ s = '-') ∧ numberFront (Text.trimStart text) = [s] := by
    cases htail : Text.trimStart text with
    | nil => exact .inl rfl
    | cons s tail =>
        rw [htail] at htext
        by_cases hs : s = '+' ∨ s = '-'
        · refine .inr ⟨s, hs, ?_⟩
          rw [numberFront, if_pos hs]
          by_cases hfront : digitsFront tail = []
          · rw [hfront]
          · have hsign : ∀ c ∈ some s, c = '+' ∨ c = '-' := by grind
            exact absurd (frontParts_of_digitsFront hsign hblanks hfront htext) (hnone _ _)
        · left
          rw [numberFront, if_neg hs]
          by_cases hfront : digitsFront (s :: tail) = []
          · exact hfront
          · have hsign : ∀ c ∈ (none : Option Char), c = '+' ∨ c = '-' := nofun
            exact absurd (frontParts_of_digitsFront hsign hblanks hfront htext) (hnone _ _)
  unfold ofFront
  rcases hempty with hfront | ⟨s, rfl | rfl, hfront⟩ <;> rw [hfront] <;> rfl

/-- What is read from the front of a text is the integer there, or zero if it is not held. -/
theorem FrontNumber.ofFront_eq {n : Int} (h : FrontNumber text n) :
    ofFront text = (checked n).getD 0 := by
  cases h with
  | number h => exact h.ofFront_eq
  | none hnone => exact ofFront_of_none hnone

/-- A text has one integer at its front. -/
theorem existsUnique_frontNumber (text : List Char) : ∃! n, FrontNumber text n := by
  by_cases hparts : ∃ sign run, FrontParts text sign run
  · obtain ⟨sign, run, h⟩ := hparts
    refine ⟨_, .number h, ?_⟩
    intro n hn
    cases hn with
    | number hother =>
        have hsplit := h.splitSign_eq.symm.trans hother.splitSign_eq
        simp only [Prod.mk.injEq, decide_eq_decide] at hsplit
        simp only [signed, runValue, hsplit.1, hsplit.2]
    | none hnone => exact absurd h (hnone sign run)
  · refine ⟨0, .none fun sign run h => hparts ⟨sign, run, h⟩, ?_⟩
    intro n hn
    cases hn with
    | number h => exact absurd ⟨_, _, h⟩ hparts
    | none hnone => rfl

/-- Exactly the integers that are held are their own nearest. -/
theorem saturate_eq_iff {n : Int} : saturate n = n ↔ fits n = true := by
  rw [fits_iff]
  unfold saturate minValue maxValue
  omega

/-- Exactly the integers that are held are read as they are. -/
theorem checked_getD_eq_iff {n : Int} : (checked n).getD 0 = n ↔ fits n = true := by
  by_cases hfits : fits n = true
  · simp [checked_of_fits hfits, hfits]
  · rw [checked_of_not_fits hfits]
    have hzero : n ≠ 0 := by
      rintro rfl
      exact hfits (by decide)
    simp [hfits, hzero.symm]

end Integer

/-! ### The conversions -/

namespace Eval

variable {σ : Type} {action : Eval σ Value} {w : World σ}

/-- The run gives this integer, or it raises. -/
def GivesOrRaises (action : Eval σ Value) (w : World σ) (n : Int) : Prop :=
  action.GivesInteger w n ∨ ∃ cls, action.Raises w cls

/-- A run that gives an integer invents none exactly if it is the right one. -/
theorem HasOutcome.givesOrRaises_iff {n k : Int} (h : action.HasOutcome w (.ok n)) :
    action.GivesOrRaises w k ↔ n = k := by
  unfold GivesOrRaises
  simp [h.gives_iff, h.raises_iff]

end Eval

namespace Reentry

open Eval Methods

variable {σ : Type} (r : Reentry σ) {w : World σ} {v : Value}

/-- The integer part of a finite float becomes the nearest integer that is held. -/
theorem integerPart_hasOutcome {x : Double} {t : Int} (ht : x.truncate? = some t)
    (hroom : w.machine.heap.Addressable) :
    (integerPart x : Eval σ Value).HasOutcome w (.ok (saturate t)) := by
  refine HasOutcome.congr (givesInteger_newInteger hroom (saturate t)) ?_
  unfold integerPart
  rw [ht]

theorem toInteger_float_apply {x : Double} (hx : w.machine.heap.float? v = some x) :
    r.toInteger v w = integerPart x w := by
  unfold toInteger
  rw [machine_bind_apply, Heap.typeOf_of_float? hx]
  simp only [hx, Option.getD_some]

theorem floatToI_apply {call : Call σ} {x : Double}
    (hx : w.machine.heap.float? call.receiver = some x) :
    Builtin.run r .floatToI call w = integerPart x w := by
  show (floatOf call >>= fun x => integerPart x) w = _
  have hfloat : (floatOf call : Eval σ Double) w = .ok x w := by
    unfold floatOf
    simp [hx]
  rw [bind_apply, hfloat]

theorem stringToI_apply {call : Call σ} {bytes : List UInt8}
    (hbytes : w.machine.heap.bytes? call.receiver = some bytes) :
    Builtin.run r .stringToI call w =
      (onMachine fun m => m.newInteger (Integer.ofFront (Utf8.decodeLossy bytes))) w := by
  show stringAsInteger call w = _
  have hchars : (charsOf call.receiver : Eval σ (List Char)) w = .ok (Utf8.decodeLossy bytes) w := by
    unfold charsOf
    simp [hbytes]
  unfold stringAsInteger
  rw [bind_apply, hchars]

theorem stringToI_hasOutcome {call : Call σ} {bytes : List UInt8}
    (hbytes : w.machine.heap.bytes? call.receiver = some bytes)
    (hroom : w.machine.heap.Addressable) :
    (Builtin.run r .stringToI call).HasOutcome w
      (.ok (Integer.ofFront (Utf8.decodeLossy bytes))) :=
  HasOutcome.congr (givesInteger_newInteger hroom _) (r.stringToI_apply hbytes)

/-- **Only integers that are not held are replaced.**  For a finite float `Integer()` and the
methods `to_i` and `to_int` give the nearest integer to its integer part that the interpreter holds;
for a string `to_i` gives the integer at its front if the interpreter holds it, and zero if not.
None of them raises, so each gives the exact integer or raises exactly if that integer is held. -/
theorem integer_conversions {w : World σ} (hroom : w.machine.heap.Addressable) :
    (∀ name ∈ ["to_i", "to_int"], CoreClass.float.ownMethod? name = some .floatToI) ∧
    (∀ call x t, w.machine.heap.float? call.receiver = some x → x.truncate? = some t →
      ∀ action ∈ [r.toInteger call.receiver, Builtin.run r .floatToI call],
        action.HasOutcome w (.ok (saturate t)) ∧
        (action.GivesOrRaises w t ↔ fits t = true)) ∧
    CoreClass.string.ownMethod? "to_i" = some .stringToI ∧
    ∀ call bytes, w.machine.heap.bytes? call.receiver = some bytes →
      (∃! n, Integer.FrontNumber (Utf8.decodeLossy bytes) n) ∧
      ∀ n, Integer.FrontNumber (Utf8.decodeLossy bytes) n →
        (Builtin.run r .stringToI call).HasOutcome w (.ok (if fits n = true then n else 0)) ∧
        ((Builtin.run r .stringToI call).GivesOrRaises w n ↔ fits n = true) := by
  refine ⟨by decide +kernel, ?_, by decide +kernel, ?_⟩
  · intro call x t hx ht action haction
    have hpart : (integerPart x : Eval σ Value).HasOutcome w (.ok (saturate t)) :=
      integerPart_hasOutcome ht hroom
    have hcomes : action.HasOutcome w (.ok (saturate t)) := by
      rcases List.mem_pair.mp haction with rfl | rfl
      · exact hpart.congr (r.toInteger_float_apply hx)
      · exact hpart.congr (r.floatToI_apply hx)
    exact ⟨hcomes, by rw [hcomes.givesOrRaises_iff, Integer.saturate_eq_iff]⟩
  · intro call bytes hbytes
    refine ⟨Integer.existsUnique_frontNumber _, fun n hn => ?_⟩
    have hread : (checked n).getD 0 = if fits n = true then n else 0 := by
      unfold checked
      split <;> rfl
    have hcomes := r.stringToI_hasOutcome hbytes hroom
    rw [hn.ofFront_eq] at hcomes
    refine ⟨by rwa [hread] at hcomes, ?_⟩
    rw [hcomes.givesOrRaises_iff, Integer.checked_getD_eq_iff]

/-- The integer after the largest is replaced both in a float and in a text. -/
theorem integer_conversions_tooLarge :
    let float := World.bare.machine.newFloat ⟨0x47e0000000000000⟩
    let text := float.2.newText "170141183460469231731687303715884105728"
    let w : World Unit := { World.bare with machine := text.2 }
    let ofFloat : Call Unit := ⟨float.1, ⟨0⟩, [], false, .none⟩
    let ofText : Call Unit := ⟨text.1, ⟨0⟩, [], false, .none⟩
    w.machine.heap.Addressable ∧
      (Builtin.run (.ofFuel 1) .floatToI ofFloat).GivesInteger w maxValue ∧
      ¬(Builtin.run (.ofFuel 1) .floatToI ofFloat).GivesOrRaises w (maxValue + 1) ∧
      (Builtin.run (.ofFuel 1) .stringToI ofText).GivesInteger w 0 ∧
      ¬(Builtin.run (.ofFuel 1) .stringToI ofText).GivesOrRaises w (maxValue + 1) := by
  intro float text w ofFloat ofText
  have hroom : w.machine.heap.Addressable := by decide +kernel
  have hfloat : w.machine.heap.float? ofFloat.receiver = some ⟨0x47e0000000000000⟩ := by
    decide +kernel
  have hpart : (⟨0x47e0000000000000⟩ : Double).truncate? = some (maxValue + 1) := by
    decide +kernel
  let run := "170141183460469231731687303715884105728".toList
  have hbytes : w.machine.heap.bytes? ofText.receiver =
      some (Utf8.encodeString "170141183460469231731687303715884105728") := by
    decide +kernel
  have hfront : Integer.FrontNumber
      (Utf8.decodeLossy (Utf8.encodeString "170141183460469231731687303715884105728"))
      (maxValue + 1) := by
    have hparts : Integer.FrontParts run none run :=
      ⟨by simp, by decide +kernel, by simp [run, Integer.isRunChar, Text.isDigit], [], [], by simp,
        by simp, by simp⟩
    have htext : Utf8.decodeLossy
        (Utf8.encodeString "170141183460469231731687303715884105728") = run :=
      Utf8.decodeLossy_encode _
    have hvalue : Integer.signed none (Integer.runValue run) = maxValue + 1 := by decide +kernel
    rw [htext, ← hvalue]
    exact .number hparts
  obtain ⟨-, hfloats, -, htexts⟩ := integer_conversions (.ofFuel 1) hroom
  obtain ⟨hgiven, hreplaced⟩ := hfloats ofFloat _ _ hfloat hpart
    (Builtin.run (.ofFuel 1) .floatToI ofFloat) (by simp)
  obtain ⟨hread, hlost⟩ := (htexts ofText _ hbytes).2 _ hfront
  exact ⟨hroom, hgiven, fun h => absurd (hreplaced.mp h) (by decide), hread,
    fun h => absurd (hlost.mp h) (by decide)⟩

end Reentry

end EmbeddedRuby
