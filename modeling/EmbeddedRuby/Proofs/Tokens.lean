import Mathlib.Algebra.Group.Nat.Defs
import EmbeddedRuby.Source.Reader

/-!
# Tokens that are read again

The reader of scripts and the printer of literals were made apart.  This module brings them together
token by token: a text between quotes (`quotedText_quote`), a plain name (`identifier?_append`), a
number (`parse?_decimalInt`, `numberChars_digits`); and for each the same is said of the two readers
that run over a line before: a token has no line feed in it, and no comment starts in it
(`Uncommented`).

What comes after a token must not go on with it.  Each lemma says which characters those are.
-/

namespace EmbeddedRuby

/-! ### Characters -/

namespace Text

/-- A character that is written so that it can be read again: any but most control characters. -/
def isLegible (c : Char) : Bool :=
  !isControl c || ['\n', '\t', '\r', escapeChar].contains c

/-- The numbers of the blanks. -/
def blankNumbers : List Nat :=
  [0x09, 0x0A, 0x0B, 0x0C, 0x0D, 0x20, 0x85, 0xA0, 0x1680, 0x2000, 0x2001, 0x2002, 0x2003, 0x2004,
    0x2005, 0x2006, 0x2007, 0x2008, 0x2009, 0x200A, 0x2028, 0x2029, 0x202F, 0x205F, 0x3000]

/-- The numbers of the blanks are the ones listed. -/
theorem mem_blankNumbers {c : Char} (hc : isBlank c = true) : c.toNat ∈ blankNumbers := by
  simp only [isBlank, Bool.or_eq_true, Bool.and_eq_true, decide_eq_true_eq, beq_iff_eq] at hc
  simp only [blankNumbers, List.mem_cons, List.not_mem_nil, or_false]
  omega

/-- No identifier starts with a blank. -/
theorem isBlank_of_isNameStart {c : Char} (hc : isNameStart c = true) : isBlank c = false := by
  have hblanks : ∀ n ∈ blankNumbers, n ≠ 0x5F ∧ (if n < 0x80 then
      (0x41 ≤ n && n ≤ 0x5A) || (0x61 ≤ n && n ≤ 0x7A)
      else inRanges alphabeticRanges n) = false := by
    decide +kernel
  cases hblank : isBlank c with
  | false => rfl
  | true =>
      obtain ⟨hunderscore, hletter⟩ := hblanks c.toNat (mem_blankNumbers hblank)
      have hnot : isLetter c = false := hletter
      simp only [isNameStart, hnot, Bool.false_or, beq_iff_eq] at hc
      subst hc
      exact absurd rfl hunderscore

/-- A digit is no blank. -/
theorem isBlank_of_isDigit {c : Char} (hc : isDigit c = true) : isBlank c = false := by
  simp only [isDigit, Bool.and_eq_true, decide_eq_true_eq] at hc
  cases hblank : isBlank c with
  | false => rfl
  | true =>
      have hlisted := mem_blankNumbers hblank
      simp only [blankNumbers, List.mem_cons, List.not_mem_nil, or_false] at hlisted
      omega

/-- A digit is none of the characters that are not digits. -/
theorem ne_of_isDigit {c letter : Char} (hc : isDigit c = true) (hletter : isDigit letter = false) :
    c ≠ letter := by
  rintro rfl
  rw [hc] at hletter
  cases hletter

/-- An identifier may go on with a digit. -/
theorem isWordChar_of_isDigit {c : Char} (hc : isDigit c = true) : isWordChar c = true := by
  have hnumeral : isNumeral c = true := by
    simp only [isDigit, Bool.and_eq_true, decide_eq_true_eq] at hc
    simp only [isNumeral]
    rw [if_pos (by omega)]
    simp [hc]
  simp [isWordChar, isAlphanumeric, hnumeral]

/-- Nothing is trimmed before a character that is no blank. -/
theorem trimStart_cons {c : Char} (hc : isBlank c = false) (rest : List Char) :
    trimStart (c :: rest) = c :: rest := by
  unfold trimStart
  rw [List.dropWhile_cons, if_neg (by simp [hc])]

/-- A space at the start is trimmed. -/
theorem trimStart_blank (rest : List Char) : trimStart (' ' :: rest) = trimStart rest := by
  unfold trimStart
  rw [List.dropWhile_cons, if_pos (by decide)]

/-- A text without blanks is not trimmed. -/
theorem trim_of_noBlank {text : List Char} (htext : ∀ c ∈ text, isBlank c = false) :
    trim text = text := by
  have hkeep : ∀ front : List Char, (∀ c ∈ front, isBlank c = false) →
      front.dropWhile isBlank = front := by
    intro front hfront
    cases front with
    | nil => rfl
    | cons c rest => exact trimStart_cons (hfront c List.mem_cons_self) rest
  unfold trim trimEndWith trimStart
  rw [hkeep text htext, hkeep text.reverse fun c hc => htext c (List.mem_reverse.mp hc),
    List.reverse_reverse]

/-- A text without line feeds is not split. -/
theorem splitLine_of_noLineFeed {text : List Char} (htext : '\n' ∉ text) :
    splitLine text = (text, none) := by
  induction text with
  | nil => rfl
  | cons c rest ih =>
      obtain ⟨hfirst, hrest⟩ := not_or.mp fun hmem => htext (List.mem_cons.mpr hmem)
      unfold splitLine
      rw [if_neg (Ne.symm hfirst), ih hrest]

/-- A text without line feeds is one line. -/
theorem lines_of_noLineFeed {text : List Char} (hsome : text ≠ []) (htext : '\n' ∉ text) :
    lines text = [text] := by
  have hsplit := splitLine_of_noLineFeed htext
  unfold lines
  split
  · rename_i hfound
    rw [hsplit] at hfound
    cases hfound
  · rename_i hfound
    rw [hsplit] at hfound
    cases hfound
    exact absurd rfl hsome
  · rename_i hfound
    rw [hsplit] at hfound
    cases hfound
    rfl

/-! ### How characters are quoted -/

/-- A legible character is written as an escape that stands for it, or as it is. -/
theorem quoteChar_cases {c : Char} (hc : isLegible c = true) :
    (∃ e, quoteChar c = ['\\', e] ∧ Source.unescape doubleQuote e = [c] ∧ e ≠ '\n') ∨
      (quoteChar c = [c] ∧ c ≠ doubleQuote ∧ c ≠ '\\' ∧ c ≠ '\n') := by
  by_cases hquote : c = doubleQuote
  · subst hquote
    exact .inl ⟨doubleQuote, by decide⟩
  by_cases hbackslash : c = '\\'
  · subst hbackslash
    exact .inl ⟨'\\', by decide⟩
  by_cases hfeed : c = '\n'
  · subst hfeed
    exact .inl ⟨'n', by decide⟩
  by_cases htab : c = '\t'
  · subst htab
    exact .inl ⟨'t', by decide⟩
  by_cases hreturn : c = '\r'
  · subst hreturn
    exact .inl ⟨'r', by decide⟩
  by_cases hescape : c = escapeChar
  · subst hescape
    exact .inl ⟨'e', by decide⟩
  right
  have hcontrol : isControl c = false := by
    simpa [isLegible, hfeed, htab, hreturn, hescape] using hc
  refine ⟨?_, hquote, hbackslash, hfeed⟩
  simp [quoteChar, hquote, hbackslash, hfeed, htab, hreturn, hescape, hcontrol]

/-- A plain name is an identifier, or one with a mark at its end. -/
theorem plainName_cases {name : List Char} (hname : isPlainName name = true)
    (hequals : name.getLast? ≠ some '=') :
    ∃ c body, isNameStart c = true ∧ (∀ d ∈ c :: body, isWordChar d = true) ∧
      (name = c :: body ∨ ∃ mark, (mark = '?' ∨ mark = '!') ∧ name = c :: body ++ [mark]) := by
  have hidentifier : ∀ {c rest}, (isNameStart c && rest.all isWordChar) = true →
      isNameStart c = true ∧ ∀ d ∈ c :: rest, isWordChar d = true := by
    intro c rest hbody
    obtain ⟨hstart, hall⟩ := Bool.and_eq_true_iff.mp hbody
    refine ⟨hstart, ?_⟩
    intro d hd
    rcases List.mem_cons.mp hd with rfl | hrest
    · exact isWordChar_of_isNameStart hstart
    · exact List.all_eq_true.mp hall d hrest
  unfold isPlainName at hname
  dsimp only at hname
  split at hname
  · rename_i c rest hbody
    obtain ⟨hstart, hall⟩ := hidentifier hname
    refine ⟨c, rest, hstart, hall, ?_⟩
    cases hlast : name.getLast? with
    | none =>
        rw [hlast] at hbody
        exact .inl hbody
    | some last =>
        rw [hlast] at hbody hequals
        dsimp only at hbody
        by_cases hmark : last = '?' ∨ last = '!' ∨ last = '='
        · rw [if_pos hmark] at hbody
          obtain ⟨front, rfl⟩ := List.getLast?_eq_some_iff.mp hlast
          rw [List.dropLast_concat] at hbody
          refine .inr ⟨last, ?_, congrArg (· ++ [last]) hbody⟩
          rcases hmark with hmark | hmark | rfl
          · exact .inl hmark
          · exact .inr hmark
          · exact absurd rfl hequals
        · rw [if_neg hmark] at hbody
          exact .inl hbody
  · cases hname

end Text

/-! ### Digits -/

namespace Numeral

/-- A number has a digit in every base. -/
theorem digits_ne_nil (base n : Nat) : digits base n ≠ [] := by
  unfold digits
  split <;> simp

/-- The characters for the numbers below ten are digits. -/
theorem isDigit_digitChar {d : Nat} (hd : d < 10) : Text.isDigit (digitChar d) = true := by
  have hall : ∀ d : Fin 10, Text.isDigit (digitChar d.val) = true := by decide
  exact hall ⟨d, hd⟩

/-- A number in decimal consists of digits. -/
theorem isDigit_of_mem_decimal (n : Nat) : ∀ c ∈ decimal n, Text.isDigit c = true := by
  unfold decimal
  induction n using Nat.strongRecOn with
  | ind n ih =>
      intro c hc
      unfold digits at hc
      split at hc
      · rename_i hlarge
        rcases List.mem_append.mp hc with hfront | hlast
        · exact ih (n / 10) (Nat.div_lt_self (by omega) (by omega)) c hfront
        · obtain rfl := List.mem_singleton.mp hlast
          exact isDigit_digitChar (Nat.mod_lt n (by omega))
      · rename_i hsmall
        obtain rfl := List.mem_singleton.mp hc
        exact isDigit_digitChar (by omega)

/-- An integer in decimal starts with a sign or a digit, and goes on with digits. -/
theorem decimalInt_cases (n : Int) :
    ∃ c rest, decimalInt n = c :: rest ∧ (∀ d ∈ rest, Text.isDigit d = true) ∧
      (Text.isDigit c = true ∨ c = '-' ∧ rest ≠ []) := by
  unfold decimalInt
  cases hdigits : decimal n.natAbs with
  | nil => exact absurd hdigits (digits_ne_nil 10 n.natAbs)
  | cons c rest =>
      have hall := isDigit_of_mem_decimal n.natAbs
      rw [hdigits] at hall
      by_cases hnegative : n < 0
      · rw [if_pos hnegative]
        exact ⟨'-', c :: rest, rfl, hall, .inr ⟨rfl, by simp⟩⟩
      · rw [if_neg hnegative]
        exact ⟨c, rest, rfl, fun d hd => hall d (List.mem_cons_of_mem c hd),
          .inl (hall c List.mem_cons_self)⟩

end Numeral

namespace Integer

open Numeral

/-- Digits are not split from a radix mark. -/
theorem splitRadix_of_digits {text : List Char} (htext : ∀ c ∈ text, Text.isDigit c = true) :
    splitRadix text = (10, text) := by
  unfold splitRadix
  split
  · rename_i c rest
    have hnot : ∀ letter : Char, Text.isDigit letter = false → c ≠ letter := fun letter =>
      Text.ne_of_isDigit (htext c (by simp))
    rw [if_neg (by simp [hnot 'x' (by decide), hnot 'X' (by decide)]),
      if_neg (by simp [hnot 'b' (by decide), hnot 'B' (by decide)]),
      if_neg (by simp [hnot 'o' (by decide), hnot 'O' (by decide)])]
  · rfl

/-- There is nothing to say against the underscores where there are none. -/
theorem underscoresOk_of_none {text : List Char} (htext : ∀ c ∈ text, c ≠ '_') :
    underscoresOk text = true := by
  have hdouble : ∀ text : List Char, (∀ c ∈ text, c ≠ '_') → hasDoubleUnderscore text = false := by
    intro text
    induction text with
    | nil => exact fun _ => rfl
    | cons c rest ih =>
        intro hall
        have hrest := ih fun d hd => hall d (List.mem_cons_of_mem c hd)
        unfold hasDoubleUnderscore
        split
        · rename_i heq
          exact absurd rfl (hall '_' (by simp [heq]))
        · rename_i heq
          cases heq
          exact hrest
        · rfl
  have hhead : text.head? ≠ some '_' := fun h => htext '_' (List.mem_of_head? h) rfl
  have hlast : text.getLast? ≠ some '_' := fun h => htext '_' (List.mem_of_getLast? h) rfl
  simp [underscoresOk, hdouble text htext, hhead, hlast]

/-- There is nothing to trim from an integer in decimal. -/
theorem trim_decimalInt (n : Int) : Text.trim (decimalInt n) = decimalInt n := by
  have hdigits : ∀ c ∈ decimal n.natAbs, Text.isBlank c = false := fun c hc =>
    Text.isBlank_of_isDigit (isDigit_of_mem_decimal n.natAbs c hc)
  apply Text.trim_of_noBlank
  intro c hc
  unfold decimalInt at hc
  split at hc
  · rcases List.mem_cons.mp hc with rfl | hrest
    · decide
    · exact hdigits c hrest
  · exact hdigits c hc

/-- An integer in decimal falls into its sign and its magnitude. -/
theorem splitSign_decimalInt (n : Int) :
    splitSign (decimalInt n) = (decide (n < 0), decimal n.natAbs) := by
  unfold decimalInt
  by_cases hnegative : n < 0
  · rw [if_pos hnegative, decide_eq_true hnegative]
    rfl
  · rw [if_neg hnegative, decide_eq_false hnegative]
    have hnosign : ∀ c rest, decimal n.natAbs = c :: rest → Text.isDigit c = true := by
      intro c rest heq
      exact isDigit_of_mem_decimal n.natAbs c (heq ▸ List.mem_cons_self)
    unfold splitSign
    split
    · rename_i heq
      cases hnosign _ _ heq
    · rename_i heq
      cases hnosign _ _ heq
    · rfl

/-- A magnitude that is held takes its sign again. -/
theorem ofMagnitude_natAbs (n : Int) :
    ofMagnitude (decide (n < 0)) n.natAbs = if n.natAbs < 2 ^ 127 then some n else none := by
  have hsigned : (if decide (n < 0) then -(n.natAbs : Int) else (n.natAbs : Int)) = n := by
    by_cases hnegative : n < 0
    · rw [if_pos (decide_eq_true hnegative)]
      omega
    · rw [if_neg (by simp [hnegative])]
      omega
  have hbound : (n.natAbs : Int) ≤ maxValue ↔ n.natAbs < 2 ^ 127 := by
    unfold maxValue
    omega
  unfold ofMagnitude
  rw [hsigned]
  simp only [hbound]

/-- An integer in decimal is read as its magnitude first, and takes its sign only then. -/
theorem parse?_decimalInt_eq (n : Int) :
    parse? (decimalInt n) = if n.natAbs < 2 ^ 127 then some n else none := by
  have hdigits := isDigit_of_mem_decimal n.natAbs
  have hnone : ∀ c ∈ decimal n.natAbs, c ≠ '_' := fun c hc =>
    Text.ne_of_isDigit (hdigits c hc) (by decide)
  have hsome : decimal n.natAbs ≠ [] := digits_ne_nil 10 n.natAbs
  have hdropped : dropUnderscores (decimal n.natAbs) = decimal n.natAbs := by
    apply List.filter_eq_self.mpr
    intro c hc
    simpa using hnone c hc
  have hvalue : ofDigits? 10 (decimal n.natAbs) = some n.natAbs :=
    ofDigits?_digits (by omega) (by omega) n.natAbs
  unfold parse?
  rw [trim_decimalInt, splitSign_decimalInt]
  simp only [splitRadix_of_digits hdigits]
  rw [if_neg (by simp [underscoresOk_of_none hnone, hsome]), hdropped, hvalue]
  exact ofMagnitude_natAbs n

/-- **An integer in decimal is read as itself**, if its magnitude is one that is held. -/
theorem parse?_decimalInt {n : Int} (hn : n.natAbs < 2 ^ 127) : parse? (decimalInt n) = some n := by
  rw [parse?_decimalInt_eq, if_pos hn]

end Integer

namespace Source

open Text

/-! ### Names, texts and numbers -/

/-- What a reader gives in another form it has read. -/
theorem exists_of_map_eq_ok {α β ε : Type} {read : Except ε α} {give : α → β} {result : β}
    (h : read.map give = .ok result) : ∃ a, read = .ok a ∧ give a = result := by
  cases read with
  | error fault => cases h
  | ok a => exact ⟨a, rfl, Except.ok.inj h⟩

/-- A token is read off the text that it stands before. -/
theorem token?_append {first : Char} (hfirst : isBlank first = false) (token rest : List Char) :
    token? (first :: token) (first :: token ++ rest) = some rest := by
  unfold token?
  rw [List.cons_append, trimStart_cons hfirst]
  exact dropFront?_eq_some_iff.mpr rfl

/-- A token is not read where another character comes. -/
theorem token?_of_ne {first c : Char} (hc : isBlank c = false) (hne : first ≠ c)
    (token rest : List Char) : token? (first :: token) (c :: rest) = none := by
  unfold token?
  rw [trimStart_cons hc, dropFront?, if_neg hne]

/-- An identifier goes on as long as there are characters of words. -/
theorem identifier?_word {c : Char} {body : List Char} (hstart : isNameStart c = true)
    (hall : ∀ d ∈ c :: body, isWordChar d = true) (tail : List Char) :
    (∀ d, tail.head? = some d → isWordChar d = false) →
      identifier? (c :: body ++ tail) =
        match tail with
        | d :: more =>
          if d = '?' ∨ d = '!' then some (c :: body ++ [d], more) else some (c :: body, d :: more)
        | [] => some (c :: body, []) := by
  intro htail
  have htrim : trimStart (c :: body ++ tail) = c :: body ++ tail :=
    trimStart_cons (isBlank_of_isNameStart hstart) _
  have htaken : (c :: body ++ tail).takeWhile isWordChar = c :: body := by
    rw [List.takeWhile_append_of_pos hall]
    cases tail with
    | nil => simp
    | cons d more => simp [htail d rfl]
  have hdropped : (c :: body ++ tail).dropWhile isWordChar = tail := by
    rw [List.dropWhile_append_of_pos hall]
    cases tail with
    | nil => rfl
    | cons d more => simp [htail d rfl]
  unfold identifier?
  simp only [htrim, htaken, hdropped]
  exact if_pos (by simp [hstart])

/-- **A plain name is read as an identifier**, up to what does not go on with it. -/
theorem identifier?_append {name rest : List Char} (hname : isPlainName name = true)
    (hequals : name.getLast? ≠ some '=')
    (hrest : ∀ c, rest.head? = some c → isWordChar c = false ∧ c ≠ '?' ∧ c ≠ '!') :
    identifier? (name ++ rest) = some (name, rest) := by
  obtain ⟨c, body, hstart, hall, rfl | ⟨mark, hmark, rfl⟩⟩ := plainName_cases hname hequals
  · rw [identifier?_word hstart hall rest fun d hd => (hrest d hd).1]
    cases rest with
    | nil => rfl
    | cons d more =>
        obtain ⟨-, hquestion, hbang⟩ := hrest d rfl
        simp only
        rw [if_neg (by simp [hquestion, hbang])]
  · have hnoWord : isWordChar mark = false := by
      rcases hmark with rfl | rfl <;> decide
    have htail : ∀ d, (mark :: rest).head? = some d → isWordChar d = false := by simp [hnoWord]
    rw [List.append_assoc, List.singleton_append, identifier?_word hstart hall _ htail]
    simp only
    rw [if_pos hmark]

/-- **A quoted text is read as itself**, up to the quote that closes it. -/
theorem quotedText_quote {text : List Char} (htext : ∀ c ∈ text, isLegible c = true)
    (rest : List Char) :
    quotedText doubleQuote (text.flatMap quoteChar ++ doubleQuote :: rest) = .ok (text, rest) := by
  induction text with
  | nil =>
      unfold quotedText
      rw [List.flatMap_nil, List.nil_append]
      exact if_pos rfl
  | cons c text ih =>
      have hread := ih fun d hd => htext d (List.mem_cons_of_mem c hd)
      rw [List.flatMap_cons, List.append_assoc]
      rcases quoteChar_cases (htext c List.mem_cons_self) with
        ⟨e, hquoted, hstands, -⟩ | ⟨hquoted, hquote, hbackslash, -⟩
      · have hnot : '\\' ≠ doubleQuote := by decide
        rw [hquoted, List.cons_append, List.singleton_append, quotedText.eq_def]
        simp only [if_neg hnot, if_true, hread, hstands, List.singleton_append]
      · rw [hquoted, List.singleton_append, quotedText.eq_def]
        simp only [if_neg hquote, if_neg hbackslash, hread]

/-- A literal ends before this text: nothing comes, or a comma, or a closing bracket. -/
def EndsLiteral (rest : List Char) : Prop :=
  ∀ c, rest.head? = some c → c = ',' ∨ c = ']'

/-- Digits are read as a number, up to where the literal ends. -/
theorem numberChars_digits {digits rest : List Char} (hdigits : ∀ c ∈ digits, isDigit c = true)
    (hrest : EndsLiteral rest) (s : NumberState) :
    numberChars s (digits ++ rest) = (digits, s.float, rest) := by
  induction digits generalizing s with
  | nil =>
      cases rest with
      | nil => rfl
      | cons c more =>
          have hstep : s.step c more = none := by
            rcases hrest c rfl with rfl | rfl <;> simp [NumberState.step, isDigit, isHexLetter]
          rw [List.nil_append, numberChars, hstep]
  | cons c digits ih =>
      have hdigit := hdigits c List.mem_cons_self
      have hstep : s.step c (digits ++ rest) = some { s with previous := c } := by
        simp [NumberState.step, hdigit]
      rw [List.cons_append, numberChars, hstep]
      simp only [ih (fun d hd => hdigits d (List.mem_cons_of_mem c hd))]

/-- **An integer is read as itself**, up to where the literal ends. -/
theorem number_decimalInt {n : Int} (hn : n.natAbs < 2 ^ 127) {first : Char} {more : List Char}
    (hwritten : Numeral.decimalInt n = first :: more) (hmore : ∀ c ∈ more, isDigit c = true)
    {rest : List Char} (hrest : EndsLiteral rest) :
    number first (more ++ rest) = .ok (.int n, rest) := by
  have hvalue : Integer.parse? (first :: more) = some n := hwritten ▸ Integer.parse?_decimalInt hn
  unfold number
  simp [numberChars_digits hmore hrest, hvalue]

/-! ### Lines and comments -/

/-- The text stays in its line: it has no line feed in it, and no comment starts in it. -/
structure InLine (text : List Char) : Prop where
  noLineFeed : '\n' ∉ text
  uncommented : ∀ rest, stripCommentFrom none false (text ++ rest) =
    text ++ stripCommentFrom none false rest

namespace InLine

variable {text front back : List Char}

/-- Two texts that stay in their line stay in it one behind the other. -/
theorem append (hfront : InLine front) (hback : InLine back) : InLine (front ++ back) := by
  refine ⟨?_, fun rest => ?_⟩
  · rw [List.mem_append]
    exact not_or.mpr ⟨hfront.noLineFeed, hback.noLineFeed⟩
  · rw [List.append_assoc, hfront.uncommented, hback.uncommented, List.append_assoc]

/-- A text without quotes stays in its line unless a comment or another line starts. -/
theorem of_chars (htext : ∀ c ∈ text, c ∉ ['\n', '#', doubleQuote, singleQuote]) : InLine text := by
  refine ⟨fun hmem => htext _ hmem (by decide), fun rest => ?_⟩
  induction text with
  | nil => rfl
  | cons c text ih =>
      have hfirst := htext c List.mem_cons_self
      simp only [List.mem_cons, List.not_mem_nil, or_false, not_or] at hfirst
      obtain ⟨-, hhash, hdouble, hsingle⟩ := hfirst
      rw [List.cons_append, stripCommentFrom, if_neg (by simp [hdouble, hsingle]), if_neg hhash,
        ih fun d hd => htext d (List.mem_cons_of_mem c hd), List.cons_append]

/-- **Between quotes no comment starts**, and line feeds are escaped. -/
theorem quote (htext : ∀ c ∈ text, isLegible c = true) : InLine (Text.quote text) := by
  have hinside : ∀ text : List Char, (∀ c ∈ text, isLegible c = true) →
      '\n' ∉ text.flatMap quoteChar ∧
      ∀ rest, stripCommentFrom (some doubleQuote) false
          (text.flatMap quoteChar ++ doubleQuote :: rest) =
        text.flatMap quoteChar ++ doubleQuote :: stripCommentFrom none false rest := by
    intro text
    induction text with
    | nil =>
        refine fun _ => ⟨by simp, fun rest => ?_⟩
        have hnot : doubleQuote ≠ '\\' := by decide
        rw [List.flatMap_nil, List.nil_append, stripCommentFrom, if_neg hnot, if_pos rfl,
          List.nil_append]
    | cons c text ih =>
        intro hall
        obtain ⟨hfeed, hstrip⟩ := ih fun d hd => hall d (List.mem_cons_of_mem c hd)
        rcases quoteChar_cases (hall c List.mem_cons_self) with
          ⟨e, hquoted, -, he⟩ | ⟨hquoted, hquote, hbackslash, hc⟩
        · refine ⟨?_, fun rest => ?_⟩
          · rw [List.flatMap_cons, hquoted]
            simp [hfeed, he.symm]
          · rw [List.flatMap_cons, hquoted, List.append_assoc, List.cons_append,
              List.singleton_append, stripCommentFrom, if_pos rfl, stripCommentFrom, hstrip]
            rfl
        · refine ⟨?_, fun rest => ?_⟩
          · rw [List.flatMap_cons, hquoted]
            simp [hfeed, hc.symm]
          · rw [List.flatMap_cons, hquoted, List.append_assoc, List.singleton_append,
              stripCommentFrom, if_neg hbackslash, if_neg hquote, hstrip]
            rfl
  obtain ⟨hfeed, hstrip⟩ := hinside text htext
  refine ⟨?_, fun rest => ?_⟩
  · unfold Text.quote
    simp [hfeed, doubleQuote]
  · unfold Text.quote
    rw [List.append_assoc, List.cons_append, stripCommentFrom, if_pos (.inl rfl),
      List.singleton_append, hstrip]
    simp

/-- A line is stripped of nothing if all of it stays in it. -/
theorem stripComment_eq (h : InLine text) : stripComment text = text := by
  have hwhole := h.uncommented []
  rw [List.append_nil] at hwhole
  exact hwhole.trans (List.append_nil text)

end InLine

end Source

end EmbeddedRuby
