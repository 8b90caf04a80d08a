import EmbeddedRuby.Proofs.IntegerConversions
import Mathlib.Data.Nat.Digits.Defs

/-!
# Integers written in a whole text

The strict reader `Integer.parse?` takes a text apart in many small steps: blanks, sign, radix mark,
four looks at the underscores, the digits themselves.  Here the language that it accepts is given by
its grammar.  A text writes an integer (`Integer.NumberText`) if it consists of

* blanks,
* one sign or none,
* a radix mark or none: `0x`, `0b` or `0o`, the letter in either case (`Integer.RadixMark`),
* digits of that radix, with one underscore or none between two of them (`Integer.SpacedDigits`),
* and blanks again.

The reader gives an integer exactly for these texts, as long as the magnitude is at most
`2 ^ 127 - 1`, and it gives the value of the digits by their places
(`Integer.parse?_eq_some_iff`).  `Reentry.toInteger_string_hasOutcome` says what that means for
`Integer()`.
-/

namespace EmbeddedRuby

namespace Text

/-- A text that has no blanks is what remains if blanks are put around it. -/
theorem trim_around {before core after : List Char} (hbefore : ∀ c ∈ before, isBlank c = true)
    (hcore : ∀ c ∈ core, isBlank c = false) (hafter : ∀ c ∈ after, isBlank c = true)
    (hsome : core ≠ []) : trim (before ++ (core ++ after)) = core := by
  have hstart : trimStart (before ++ (core ++ after)) = core ++ after := by
    obtain ⟨c, more, rfl⟩ := List.exists_cons_of_ne_nil hsome
    unfold trimStart
    rw [List.dropWhile_append_of_pos hbefore]
    exact trimStart_cons (hcore c List.mem_cons_self) (more ++ after)
  have hend : (core ++ after).reverse.dropWhile isBlank = core.reverse := by
    obtain ⟨c, more, hlast⟩ : ∃ c more, core.reverse = c :: more :=
      List.exists_cons_of_ne_nil (by simpa using hsome)
    have hc : c ∈ core := by
      rw [← List.mem_reverse, hlast]
      exact List.mem_cons_self
    rw [List.reverse_append,
      List.dropWhile_append_of_pos fun c hmem => hafter c (List.mem_reverse.mp hmem), hlast]
    exact trimStart_cons (hcore c hc) more
  unfold trim trimEndWith
  rw [hstart, hend, List.reverse_reverse]

/-- Trimming takes only blanks away. -/
theorem exists_blanks_around (text : List Char) :
    ∃ before after, (∀ c ∈ before, isBlank c = true) ∧ (∀ c ∈ after, isBlank c = true) ∧
      text = before ++ (trim text ++ after) := by
  let rest := trimStart text
  refine ⟨text.takeWhile isBlank, (rest.reverse.takeWhile isBlank).reverse, ?_, ?_, ?_⟩
  · exact fun c hc => List.mem_takeWhile_imp hc
  · exact fun c hc => List.mem_takeWhile_imp (List.mem_reverse.mp hc)
  · have hrest : trim text ++ (rest.reverse.takeWhile isBlank).reverse = rest := by
      unfold trim trimEndWith
      rw [← List.reverse_append, List.takeWhile_append_dropWhile, List.reverse_reverse]
    rw [hrest]
    exact List.takeWhile_append_dropWhile.symm

end Text

namespace Integer

/-! ### The grammar -/

/-- The character is the digit `d`; the letters of the digits from ten on have either case. -/
def IsDigitOf (d : Nat) (c : Char) : Prop :=
  "0123456789abcdef".toList[d]? = some c ∨ "0123456789ABCDEF".toList[d]? = some c

/-- The mark in front of the digits, and the radix that it announces; without a mark it is ten. -/
inductive RadixMark : List Char → Nat → Prop
  | none : RadixMark [] 10
  | hexadecimal {c : Char} (hc : c = 'x' ∨ c = 'X') : RadixMark ['0', c] 16
  | binary {c : Char} (hc : c = 'b' ∨ c = 'B') : RadixMark ['0', c] 2
  | octal {c : Char} (hc : c = 'o' ∨ c = 'O') : RadixMark ['0', c] 8

/-- The text consists of these digits of the radix, the most significant first; between two digits
there may be one underscore. -/
inductive SpacedDigits (radix : Nat) : List Char → List Nat → Prop
  | single {c : Char} {d : Nat} (hc : IsDigitOf d c) (hd : d < radix) : SpacedDigits radix [c] [d]
  | next {c : Char} {d : Nat} {text : List Char} {places : List Nat} (hc : IsDigitOf d c)
      (hd : d < radix) (more : SpacedDigits radix text places) :
      SpacedDigits radix (c :: text) (d :: places)
  | spaced {c : Char} {d : Nat} {text : List Char} {places : List Nat} (hc : IsDigitOf d c)
      (hd : d < radix) (more : SpacedDigits radix text places) :
      SpacedDigits radix (c :: '_' :: text) (d :: places)

/-- The value of digits by their places, the most significant first. -/
def placeValue (radix : Nat) (places : List Nat) : Nat :=
  Nat.ofDigits radix places.reverse

/-- The whole text writes a number: blanks, sign, radix mark, digits, blanks. -/
structure NumberText (text : List Char) (sign : Option Char) (mark : List Char) (radix : Nat)
    (places : List Nat) : Prop where
  signs : ∀ c ∈ sign, c = '+' ∨ c = '-'
  marks : RadixMark mark radix
  parts : ∃ before digits after, (∀ c ∈ before, Text.isBlank c = true) ∧
    SpacedDigits radix digits places ∧ (∀ c ∈ after, Text.isBlank c = true) ∧
    text = before ++ ((sign.toList ++ (mark ++ digits)) ++ after)

variable {radix d : Nat} {c : Char} {text mark : List Char} {places : List Nat}
  {sign : Option Char}

/-! ### Digits -/

/-- A digit is one of the characters in two short lists. -/
theorem IsDigitOf.of_table {holds : Nat → Char → Bool}
    (htable : ∀ d : Fin 16, "0123456789abcdef".toList[d.val]?.all (holds d) = true ∧
      "0123456789ABCDEF".toList[d.val]?.all (holds d) = true)
    (hc : IsDigitOf d c) : holds d c = true := by
  have hbound : d < 16 := by
    rcases hc with hc | hc
    · exact (List.getElem?_eq_some_iff.mp hc).1
    · exact (List.getElem?_eq_some_iff.mp hc).1
  obtain ⟨hlower, hupper⟩ := htable ⟨d, hbound⟩
  rcases hc with hc | hc
  · rwa [hc] at hlower
  · rwa [hc] at hupper

/-- A digit is neither a blank nor an underscore. -/
theorem IsDigitOf.classes (hc : IsDigitOf d c) : Text.isBlank c = false ∧ c ≠ '_' := by
  let holds : Nat → Char → Bool := fun _ c => !Text.isBlank c && c != '_'
  have hholds : holds d c = true := hc.of_table (by decide +kernel)
  simpa [holds] using hholds

/-- A digit below ten is a decimal digit, at its distance from zero. -/
theorem IsDigitOf.decimal (hc : IsDigitOf d c) (hd : d < 10) :
    Text.isDigit c = true ∧ c.toNat - 0x30 = d := by
  let holds : Nat → Char → Bool :=
    fun d c => decide (d < 10 → Text.isDigit c = true ∧ c.toNat - 0x30 = d)
  have hholds : holds d c = true := hc.of_table (by decide +kernel)
  exact of_decide_eq_true hholds hd

/-- Digits are read as what they are, and nothing else is. -/
theorem digitIn?_eq_some_iff (hradix : radix ≤ 16) :
    Numeral.digitIn? radix c = some d ↔ IsDigitOf d c ∧ d < radix := by
  have hread : ∀ n : Fin 128, ∀ d : Fin 16,
      Numeral.digitValue? (Char.ofNat n.val) = some d.val → IsDigitOf d.val (Char.ofNat n.val) := by
    unfold IsDigitOf
    decide +kernel
  unfold Numeral.digitIn?
  rw [Option.filter_eq_some_iff, decide_eq_true_iff]
  refine and_congr_left fun hd => ⟨fun hvalue => ?_, fun hc => ?_⟩
  · have hsmall : c.toNat < 128 := by
      simp only [Numeral.digitValue?, Bool.and_eq_true, decide_eq_true_eq] at hvalue
      grind
    have hdigit := hread ⟨c.toNat, hsmall⟩ ⟨d, by omega⟩
    rw [Char.ofNat_toNat] at hdigit
    exact hdigit hvalue
  · let holds : Nat → Char → Bool := fun d c => Numeral.digitValue? c == some d
    have hholds : holds d c = true := hc.of_table (by decide +kernel)
    exact eq_of_beq hholds

/-- One more place at the front of the digits. -/
theorem placeValue_eq_foldl (radix : Nat) (places : List Nat) :
    placeValue radix places = places.foldl (fun value d => value * radix + d) 0 := by
  unfold placeValue
  rw [Nat.ofDigits_eq_foldr, List.foldr_reverse]
  congr 1
  funext value d
  rw [Nat.cast_id, Nat.mul_comm, Nat.add_comm]

/-! ### Underscores -/

/-- An underscore stands alone if none comes after it. -/
theorem hasDoubleUnderscore_underscore (text : List Char) :
    hasDoubleUnderscore ('_' :: text) = (text.head? == some '_' || hasDoubleUnderscore text) := by
  cases text with
  | nil => rfl
  | cons c rest =>
      by_cases hc : c = '_'
      · subst hc
        rfl
      · simp [hasDoubleUnderscore, hc]

/-- Other characters do not matter for it. -/
theorem hasDoubleUnderscore_cons (hc : c ≠ '_') (text : List Char) :
    hasDoubleUnderscore (c :: text) = hasDoubleUnderscore text := by
  simp [hasDoubleUnderscore, hc]

/-- The underscores of a text are those of its rest, where the rest does not start with one. -/
theorem underscoresOk_cons (hc : c ≠ '_') (hsome : text ≠ []) (hhead : text.head? ≠ some '_') :
    underscoresOk (c :: text) = underscoresOk text := by
  have hfirst : ((c :: text).head? != some '_') = true := by simpa using hc
  have hsecond : (text.head? != some '_') = true := by simpa using hhead
  unfold underscoresOk
  rw [hasDoubleUnderscore_cons hc, List.getLast?_cons_of_ne_nil hsome, hfirst, hsecond]

/-- One underscore between two characters is right. -/
theorem underscoresOk_spaced (hc : c ≠ '_') (hsome : text ≠ []) :
    underscoresOk (c :: '_' :: text) = underscoresOk text := by
  have hfirst : ((c :: '_' :: text).head? != some '_') = true := by simpa using hc
  unfold underscoresOk
  rw [hasDoubleUnderscore_cons hc, hasDoubleUnderscore_underscore,
    List.getLast?_cons_of_ne_nil (List.cons_ne_nil _ _), List.getLast?_cons_of_ne_nil hsome, hfirst]
  cases hhead : text.head? == some '_' <;> simp [bne, hhead]

/-! ### Digits and underscores together -/

theorem SpacedDigits.ne_nil (h : SpacedDigits radix text places) : text ≠ [] := by
  cases h <;> exact List.cons_ne_nil _ _

/-- Digits start with a digit. -/
theorem SpacedDigits.head (h : SpacedDigits radix text places) :
    ∃ c rest d, text = c :: rest ∧ IsDigitOf d c ∧ d < radix := by
  cases h with
  | single hc hd => exact ⟨_, _, _, rfl, hc, hd⟩
  | next hc hd more => exact ⟨_, _, _, rfl, hc, hd⟩
  | spaced hc hd more => exact ⟨_, _, _, rfl, hc, hd⟩

/-- Digits consist of digits and underscores. -/
theorem SpacedDigits.chars (h : SpacedDigits radix text places) :
    ∀ c ∈ text, c = '_' ∨ ∃ d, IsDigitOf d c ∧ d < radix := by
  induction h with
  | single hc hd =>
      intro c hmem
      rw [List.mem_singleton] at hmem
      exact .inr ⟨_, hmem ▸ hc, hd⟩
  | next hc hd more ih =>
      intro c hmem
      rcases List.mem_cons.mp hmem with rfl | hmem
      · exact .inr ⟨_, hc, hd⟩
      · exact ih c hmem
  | spaced hc hd more ih =>
      intro c hmem
      rcases List.mem_cons.mp hmem with rfl | hmem
      · exact .inr ⟨_, hc, hd⟩
      · rcases List.mem_cons.mp hmem with rfl | hmem
        · exact .inl rfl
        · exact ih c hmem

/-- A number goes on with decimal digits and the underscores between them. -/
theorem SpacedDigits.isRunChar (h : SpacedDigits 10 text places) :
    ∀ c ∈ text, isRunChar c = true := by
  intro c hmem
  unfold Integer.isRunChar
  rcases h.chars c hmem with rfl | ⟨d, hc, hd⟩
  · rfl
  · rw [(hc.decimal hd).1, Bool.true_or]

/-- Digits are not trimmed. -/
theorem SpacedDigits.not_blank (h : SpacedDigits radix text places) :
    ∀ c ∈ text, Text.isBlank c = false := by
  intro c hmem
  rcases h.chars c hmem with rfl | ⟨d, hc, -⟩
  · decide
  · exact hc.classes.1

/-- The underscores between digits are right. -/
theorem SpacedDigits.underscoresOk (h : SpacedDigits radix text places) :
    underscoresOk text = true := by
  induction h with
  | single hc hd => simp [Integer.underscoresOk, hasDoubleUnderscore, hc.classes.2]
  | next hc hd more ih =>
      obtain ⟨c, rest, d, rfl, hfirst, -⟩ := more.head
      rw [underscoresOk_cons hc.classes.2 more.ne_nil (by simpa using hfirst.classes.2)]
      exact ih
  | spaced hc hd more ih =>
      rw [underscoresOk_spaced hc.classes.2 more.ne_nil]
      exact ih

/-- Digits are read to their value. -/
theorem SpacedDigits.read (hradix : radix ≤ 16) (h : SpacedDigits radix text places) (acc : Nat) :
    Numeral.ofDigitsFrom radix acc (dropUnderscores text) =
      some (places.foldl (fun value d => value * radix + d) acc) := by
  have hstep : ∀ {c d} (rest : List Char) (acc : Nat), IsDigitOf d c → d < radix →
      Numeral.ofDigitsFrom radix acc (dropUnderscores (c :: rest)) =
        Numeral.ofDigitsFrom radix (acc * radix + d) (dropUnderscores rest) := by
    intro c d rest acc hc hd
    have hkeep : dropUnderscores (c :: rest) = c :: dropUnderscores rest := by
      simp [dropUnderscores, hc.classes.2]
    rw [hkeep, Numeral.ofDigitsFrom, (digitIn?_eq_some_iff hradix).mpr ⟨hc, hd⟩, Option.bind_some]
  induction h generalizing acc with
  | single hc hd =>
      rw [hstep [] acc hc hd]
      rfl
  | next hc hd more ih =>
      rw [hstep _ acc hc hd, ih, List.foldl_cons]
  | spaced hc hd more ih =>
      rw [hstep _ acc hc hd, List.foldl_cons, ← ih]
      rfl

/-- What is read and has its underscores right consists of digits. -/
theorem exists_spacedDigits (hradix : radix ≤ 16) :
    ∀ (text : List Char) (acc n : Nat), text ≠ [] → underscoresOk text = true →
      Numeral.ofDigitsFrom radix acc (dropUnderscores text) = some n →
      ∃ places, SpacedDigits radix text places
  | [], _, _, hsome, _, _ => absurd rfl hsome
  | c :: rest, acc, n, _, hok, hread => by
      have hc : c ≠ '_' := by
        rintro rfl
        cases hok
      have hkeep : dropUnderscores (c :: rest) = c :: dropUnderscores rest := by
        simp [dropUnderscores, hc]
      rw [hkeep, Numeral.ofDigitsFrom, Option.bind_eq_some_iff] at hread
      obtain ⟨d, hdigit, hread⟩ := hread
      obtain ⟨hc', hd⟩ := (digitIn?_eq_some_iff hradix).mp hdigit
      by_cases hrest : rest = []
      · subst hrest
        exact ⟨[d], .single hc' hd⟩
      · by_cases hhead : rest.head? = some '_'
        · obtain ⟨more, rfl⟩ : ∃ more, rest = '_' :: more := List.head?_eq_some_iff.mp hhead
          have hmore : more ≠ [] := by
            rintro rfl
            simp [underscoresOk] at hok
          rw [underscoresOk_spaced hc hmore] at hok
          obtain ⟨places, hplaces⟩ := exists_spacedDigits hradix more _ n hmore hok hread
          exact ⟨d :: places, .spaced hc' hd hplaces⟩
        · rw [underscoresOk_cons hc hrest hhead] at hok
          obtain ⟨places, hplaces⟩ := exists_spacedDigits hradix rest _ n hrest hok hread
          exact ⟨d :: places, .next hc' hd hplaces⟩

/-- The digits of the radix are read exactly if they are written as digits, to their value. -/
theorem reads_digits_iff (hradix : radix ≤ 16) {n : Nat} :
    (text ≠ [] ∧ underscoresOk text = true ∧
        Numeral.ofDigits? radix (dropUnderscores text) = some n) ↔
      ∃ places, SpacedDigits radix text places ∧ placeValue radix places = n := by
  constructor
  · rintro ⟨hsome, hok, hread⟩
    obtain ⟨places, hplaces⟩ := exists_spacedDigits hradix text 0 n hsome hok hread
    refine ⟨places, hplaces, ?_⟩
    rw [Numeral.ofDigits?, hplaces.read hradix 0] at hread
    rw [placeValue_eq_foldl, Option.some.inj hread]
  · rintro ⟨places, hplaces, rfl⟩
    refine ⟨hplaces.ne_nil, hplaces.underscoresOk, ?_⟩
    rw [Numeral.ofDigits?, hplaces.read hradix 0, placeValue_eq_foldl]

/-! ### Sign and radix mark -/

/-- What is split from the front of a text is a sign or nothing. -/
theorem exists_sign_of_splitSign (text : List Char) :
    ∃ (sign : Option Char) (rest : List Char), (∀ c ∈ sign, c = '+' ∨ c = '-') ∧
      splitSign text = (decide (sign = some '-'), rest) ∧ text = sign.toList ++ rest := by
  unfold splitSign
  split
  · exact ⟨some '-', _, by simp, rfl, rfl⟩
  · exact ⟨some '+', _, by simp, rfl, rfl⟩
  · exact ⟨none, _, by simp, rfl, rfl⟩

/-- A sign is split from a digit that comes after it. -/
theorem splitSign_append {rest : List Char} (hsign : ∀ c ∈ sign, c = '+' ∨ c = '-')
    (hc : Text.isDigit c = true) :
    splitSign (sign.toList ++ c :: rest) = (decide (sign = some '-'), c :: rest) := by
  cases sign with
  | none => exact splitSign_of_isDigit hc rest
  | some s => rcases hsign s rfl with rfl | rfl <;> rfl

/-- What is split from the front of the digits is a radix mark or nothing. -/
theorem exists_mark_of_splitRadix (text : List Char) :
    ∃ mark radix rest, RadixMark mark radix ∧ splitRadix text = (radix, rest) ∧
      text = mark ++ rest := by
  unfold splitRadix
  split
  · rename_i c rest
    by_cases hx : c = 'x' ∨ c = 'X'
    · rw [if_pos hx]
      exact ⟨['0', c], 16, rest, .hexadecimal hx, rfl, rfl⟩
    · by_cases hb : c = 'b' ∨ c = 'B'
      · rw [if_neg hx, if_pos hb]
        exact ⟨['0', c], 2, rest, .binary hb, rfl, rfl⟩
      · by_cases ho : c = 'o' ∨ c = 'O'
        · rw [if_neg hx, if_neg hb, if_pos ho]
          exact ⟨['0', c], 8, rest, .octal ho, rfl, rfl⟩
        · rw [if_neg hx, if_neg hb, if_neg ho]
          exact ⟨[], 10, _, .none, rfl, rfl⟩
  · exact ⟨[], 10, _, .none, rfl, rfl⟩

/-- No radix is larger than sixteen. -/
theorem RadixMark.le_sixteen (h : RadixMark mark radix) : radix ≤ 16 := by
  cases h <;> decide

/-- No letter of a radix mark is a decimal digit or an underscore. -/
theorem splitRadix_of_decimal (h : SpacedDigits 10 text places) : splitRadix text = (10, text) := by
  have hclass : ∀ c ∈ text, isRunChar c = true := h.isRunChar
  unfold splitRadix
  split
  · rename_i c rest
    have hc : isRunChar c = true := hclass c (by simp)
    have hnot : ∀ letter, isRunChar letter = false → c ≠ letter := by
      intro letter hletter heq
      rw [heq, hletter] at hc
      cases hc
    rw [if_neg (not_or.mpr ⟨hnot 'x' (by decide), hnot 'X' (by decide)⟩),
      if_neg (not_or.mpr ⟨hnot 'b' (by decide), hnot 'B' (by decide)⟩),
      if_neg (not_or.mpr ⟨hnot 'o' (by decide), hnot 'O' (by decide)⟩)]
  · rfl

/-- A radix mark is split from the digits of its radix. -/
theorem RadixMark.splitRadix_append (hmark : RadixMark mark radix)
    (hdigits : SpacedDigits radix text places) : splitRadix (mark ++ text) = (radix, text) := by
  cases hmark with
  | none => exact splitRadix_of_decimal hdigits
  | hexadecimal hc => rcases hc with rfl | rfl <;> rfl
  | binary hc => rcases hc with rfl | rfl <;> rfl
  | octal hc => rcases hc with rfl | rfl <;> rfl

/-- Mark and digits start with a decimal digit. -/
theorem RadixMark.exists_cons (hmark : RadixMark mark radix)
    (hdigits : SpacedDigits radix text places) :
    ∃ c rest, mark ++ text = c :: rest ∧ Text.isDigit c = true := by
  cases hmark with
  | none =>
      obtain ⟨c, rest, d, rfl, hc, hd⟩ := hdigits.head
      exact ⟨c, rest, rfl, (hc.decimal hd).1⟩
  | hexadecimal hc => exact ⟨'0', _, rfl, by decide⟩
  | binary hc => exact ⟨'0', _, rfl, by decide⟩
  | octal hc => exact ⟨'0', _, rfl, by decide⟩

/-- A radix mark has no blanks. -/
theorem RadixMark.not_blank (h : RadixMark mark radix) : ∀ c ∈ mark, Text.isBlank c = false := by
  have hblank : mark.any Text.isBlank = false := by
    cases h with
    | none => rfl
    | hexadecimal hc => rcases hc with rfl | rfl <;> decide
    | binary hc => rcases hc with rfl | rfl <;> decide
    | octal hc => rcases hc with rfl | rfl <;> decide
  exact fun c hmem => eq_false_of_ne_true (List.any_eq_false.mp hblank c hmem)

/-! ### The reader -/

/-- The magnitude with its sign, if the magnitude is one that is held. -/
theorem ofMagnitude_eq_some_iff {magnitude : Nat} {v : Int} :
    ofMagnitude (decide (sign = some '-')) magnitude = some v ↔
      magnitude ≤ 2 ^ 127 - 1 ∧ v = signed sign magnitude := by
  have hbound : (magnitude : Int) ≤ maxValue ↔ magnitude ≤ 2 ^ 127 - 1 := by
    unfold maxValue
    omega
  unfold ofMagnitude signed
  simp only [hbound, decide_eq_true_eq, Option.ite_none_right_eq_some, Option.some.injEq]
  exact and_congr_right fun _ => eq_comm

/-- A number that is written is read as its digits and its sign. -/
theorem NumberText.parse?_eq (h : NumberText text sign mark radix places) :
    parse? text = ofMagnitude (decide (sign = some '-')) (placeValue radix places) := by
  obtain ⟨before, digits, after, hbefore, hdigits, hafter, rfl⟩ := h.parts
  obtain ⟨c, rest, hfirst, hc⟩ := h.marks.exists_cons hdigits
  have htrim : Text.trim (before ++ ((sign.toList ++ (mark ++ digits)) ++ after)) =
      sign.toList ++ (mark ++ digits) := by
    refine Text.trim_around hbefore ?_ hafter ?_
    · intro c hmem
      rcases List.mem_append.mp hmem with hsign | hmem
      · exact (sign_classes (h.signs c (Option.mem_toList.mp hsign))).2.1
      · rcases List.mem_append.mp hmem with hmark | hdigit
        · exact h.marks.not_blank c hmark
        · exact hdigits.not_blank c hdigit
    · simp [hdigits.ne_nil]
  have hsplit : splitSign (sign.toList ++ (mark ++ digits)) =
      (decide (sign = some '-'), mark ++ digits) := by
    rw [hfirst]
    exact splitSign_append h.signs hc
  obtain ⟨hsome, hok, hread⟩ := (reads_digits_iff h.marks.le_sixteen).mpr ⟨places, hdigits, rfl⟩
  unfold parse?
  simp only [htrim, hsplit, h.marks.splitRadix_append hdigits, hsome, hok, hread, false_or,
    Bool.true_eq_false, if_false, Option.bind_some]

/-- What is read is written in the text. -/
theorem exists_numberText {v : Int} (h : parse? text = some v) :
    ∃ sign mark radix places, NumberText text sign mark radix places := by
  obtain ⟨before, after, hbefore, hafter, htext⟩ := Text.exists_blanks_around text
  obtain ⟨sign, rest, hsigns, hsign, hrest⟩ := exists_sign_of_splitSign (Text.trim text)
  obtain ⟨mark, radix, digits, hmark, hradix, hdigits⟩ := exists_mark_of_splitRadix rest
  unfold parse? at h
  simp only [hsign, hradix, Option.ite_none_left_eq_some, not_or, Bool.not_eq_false,
    Option.bind_eq_some_iff] at h
  obtain ⟨⟨hsome, hok⟩, n, hread, -⟩ := h
  obtain ⟨places, hplaces, -⟩ := (reads_digits_iff hmark.le_sixteen).mp ⟨hsome, hok, hread⟩
  refine ⟨sign, mark, radix, places, hsigns, hmark, before, digits, after, hbefore, hplaces, hafter,
    ?_⟩
  rw [← hdigits, ← hrest]
  exact htext

/-- **The strict reader accepts the grammar.**  A text is read as an integer exactly if it writes a
number whose magnitude is at most `2 ^ 127 - 1`; the integer is the signed value of its digits by
their places. -/
theorem parse?_eq_some_iff {v : Int} :
    parse? text = some v ↔ ∃ sign mark radix places, NumberText text sign mark radix places ∧
      placeValue radix places ≤ 2 ^ 127 - 1 ∧ v = signed sign (placeValue radix places) := by
  constructor
  · intro h
    obtain ⟨sign, mark, radix, places, hparts⟩ := exists_numberText h
    rw [hparts.parse?_eq] at h
    exact ⟨sign, mark, radix, places, hparts, ofMagnitude_eq_some_iff.mp h⟩
  · rintro ⟨sign, mark, radix, places, hparts, hvalue⟩
    rw [hparts.parse?_eq]
    exact ofMagnitude_eq_some_iff.mpr hvalue

/-- What is read and its opposite are integers that are held. -/
theorem fits_of_parse? {v : Int} (h : parse? text = some v) : fits v = true ∧ fits (-v) = true := by
  obtain ⟨sign, mark, radix, places, -, hbound, rfl⟩ := parse?_eq_some_iff.mp h
  rw [fits_iff, fits_iff]
  unfold signed minValue maxValue
  split <;> omega

end Integer

/-! ### Strings as integers -/

namespace Reentry

open Eval Integer

variable {σ : Type} (r : Reentry σ) {w : World σ} {v : Value} {bytes : List UInt8}

/-- For a string the strict reader decides between a new integer and an exception. -/
theorem toInteger_string_apply (hbytes : w.machine.heap.bytes? v = some bytes) :
    r.toInteger v w =
      match parse? (Utf8.decodeLossy bytes) with
      | some n => (onMachine fun m => m.newInteger n) w
      | none => raise (.badInteger (String.ofList (Text.quote (Utf8.decodeLossy bytes)))) w := by
  have htype : w.machine.heap.typeOf v = .string :=
    Heap.typeOf_of_body? (Heap.body?_of_bytes? hbytes)
  unfold toInteger
  rw [machine_bind_apply, htype]
  simp only [hbytes, Option.getD_some]
  cases parse? (Utf8.decodeLossy bytes) <;> rfl

/-- What `Integer()` makes of a string is what the strict reader gives. -/
theorem toInteger_string_hasOutcome (hbytes : w.machine.heap.bytes? v = some bytes)
    (hroom : w.RoomToRaise) :
    (r.toInteger v).HasOutcome w
      (match parse? (Utf8.decodeLossy bytes) with
        | some n => .ok n
        | none => .error .argumentError) := by
  have hrun := r.toInteger_string_apply hbytes
  cases hparse : parse? (Utf8.decodeLossy bytes) with
  | some n =>
      rw [hparse] at hrun
      have hgives : HasOutcome (onMachine fun m => m.newInteger n) w (.ok n) :=
        givesInteger_newInteger hroom.addressable n
      exact hgives.congr hrun
  | none =>
      rw [hparse] at hrun
      have hraises : HasOutcome (raise (.badInteger _)) w (.error .argumentError) :=
        raises_raise hroom (.badInteger (String.ofList (Text.quote (Utf8.decodeLossy bytes))))
      exact hraises.congr hrun

/-- A string makes no panic of `Integer()`, whether there is room or not. -/
theorem toInteger_string_not_panics (hbytes : w.machine.heap.bytes? v = some bytes) :
    ¬(r.toInteger v).Panics w := by
  rintro ⟨panic, w', hrun⟩
  rw [r.toInteger_string_apply hbytes] at hrun
  split at hrun <;> cases hrun

end Reentry

/-- **A string is an integer exactly if the whole of it writes one.**  The strict reader accepts
blanks, a sign, a radix mark and digits with single underscores between them, up to a magnitude of
`2 ^ 127 - 1`; it gives the signed value of the digits, which is held with either sign.  `Integer()`
gives what is read of a string, and raises an `ArgumentError` if nothing is; it never panics. -/
theorem Integer.text_written_iff :
    (∀ text v, parse? text = some v ↔
      ∃ sign mark radix places, NumberText text sign mark radix places ∧
        placeValue radix places ≤ 2 ^ 127 - 1 ∧ v = signed sign (placeValue radix places)) ∧
    (∀ text v, parse? text = some v → fits v = true ∧ fits (-v) = true) ∧
    ∀ (σ : Type) (r : Reentry σ) (w : World σ) (string : Value) (bytes : List UInt8),
      w.machine.heap.bytes? string = some bytes →
        ¬(r.toInteger string).Panics w ∧
        (w.RoomToRaise → (r.toInteger string).HasOutcome w
          (match parse? (Utf8.decodeLossy bytes) with
            | some n => .ok n
            | none => .error .argumentError)) := by
  refine ⟨fun text v => parse?_eq_some_iff, fun text v h => fits_of_parse? h, ?_⟩
  intro σ r w string bytes hbytes
  exact ⟨r.toInteger_string_not_panics hbytes, r.toInteger_string_hasOutcome hbytes⟩

/-- With blanks, sign, mark and underscore all present minus thirty-one is read; with a second
underscore an exception is raised. -/
theorem Integer.text_written_hexadecimal :
    let text := " -0X1_f\t"
    let string := World.bare.machine.newText text
    let other := string.2.newText "1__0"
    let w : World Unit := { World.bare with machine := other.2 }
    w.RoomToRaise ∧
      NumberText text.toList (some '-') ['0', 'X'] 16 [1, 15] ∧
      parse? text.toList = some (-31) ∧ fits (-31) = true ∧
      (Reentry.toInteger (.ofFuel 1) string.1).GivesInteger w (-31) ∧
      (Reentry.toInteger (.ofFuel 1) other.1).Raises w .argumentError ∧
      ¬(Reentry.toInteger (.ofFuel 1) other.1).Panics w := by
  intro text string other w
  have hroom : w.RoomToRaise := by decide +kernel
  have hdigits : SpacedDigits 16 "1_f".toList [1, 15] :=
    .spaced (.inl rfl) (by decide) (.single (.inl rfl) (by decide))
  have hparts : NumberText text.toList (some '-') ['0', 'X'] 16 [1, 15] :=
    ⟨by simp, .hexadecimal (.inr rfl), [' '], "1_f".toList, ['\t'], by simp [Text.isBlank],
      hdigits, by simp [Text.isBlank], by decide⟩
  obtain ⟨hread, hfits, hruns⟩ := text_written_iff
  have hvalue : parse? text.toList = some (-31) :=
    (hread _ _).mpr ⟨_, _, _, _, hparts, by decide, by decide⟩
  have hstring : w.machine.heap.bytes? string.1 = some (Utf8.encodeString text) := by
    decide +kernel
  have hother : w.machine.heap.bytes? other.1 = some (Utf8.encodeString "1__0") := by
    decide +kernel
  have hnone : parse? (Utf8.decodeLossy (Utf8.encodeString "1__0")) = none := by decide +kernel
  have hgives := (hruns Unit (.ofFuel 1) w string.1 _ hstring).2 hroom
  have hraises := (hruns Unit (.ofFuel 1) w other.1 _ hother).2 hroom
  have hsame : Utf8.decodeLossy (Utf8.encodeString text) = text.toList :=
    Utf8.decodeLossy_encode text.toList
  rw [hsame, hvalue] at hgives
  rw [hnone] at hraises
  exact ⟨hroom, hparts, hvalue, (hfits _ _ hvalue).1, hgives, hraises,
    (hruns Unit (.ofFuel 1) w other.1 _ hother).1⟩

end EmbeddedRuby
