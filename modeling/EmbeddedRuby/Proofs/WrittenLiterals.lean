import EmbeddedRuby.Proofs.Tokens

/-!
# Literals that are read again

How a literal is written (`Literal.written`), and which literals are read again as they were
(`Literal.Readable`): those of numbers that the reader holds, of texts and symbols without any but
four control characters, and arrays of these.  A symbol that is a plain name with an equals sign at
its end is written without quotes, and the reader stops before the sign.

The main statements are `Source.literal_written`, by induction on the literal: the reader takes what
was written, and nothing of what comes after; and `Source.parse_assignment`: a line that assigns the
written literal to a constant is one statement.
-/

namespace EmbeddedRuby

open Text

namespace Literal

mutual

/-- How a literal is written. -/
def written : Literal → List Char
  | .nil => "nil".toList
  | .true => "true".toList
  | .false => "false".toList
  | .int n => Numeral.decimalInt n
  | .float x => x.text.toList
  | .string text => quote text
  | .symbol name => quoteSymbol name
  | .array items => '[' :: ([',', ' '].intercalate (writtenItems items) ++ [']'])
  | .constant path => [':', ':'].intercalate path

/-- How the items of an array are written. -/
def writtenItems : List Literal → List (List Char)
  | [] => []
  | item :: rest => written item :: writtenItems rest

end

/-- The items of an array are written one by one. -/
theorem writtenItems_eq (items : List Literal) : writtenItems items = items.map written := by
  induction items with
  | nil => rfl
  | cons item rest ih =>
      rw [writtenItems, ih, List.map_cons]

/-- The literal is read as it was written. -/
inductive Readable : Literal → Prop
  | nil : Readable .nil
  | true : Readable .true
  | false : Readable .false
  | int {n : Int} (hn : n.natAbs < 2 ^ 127) : Readable (.int n)
  | string {text : List Char} (htext : ∀ c ∈ text, isLegible c = Bool.true) :
      Readable (.string text)
  | symbol {name : List Char} (hname : ∀ c ∈ name, isLegible c = Bool.true)
      (hequals : isPlainName name = Bool.true → name.getLast? ≠ some '=') : Readable (.symbol name)
  | array {items : List Literal} (hitems : ∀ item ∈ items, Readable item) : Readable (.array items)

variable {lit : Literal}

/-- What is written starts with a character that neither is blank nor closes an array. -/
theorem Readable.written_head (h : Readable lit) :
    ∃ c rest, lit.written = c :: rest ∧ isBlank c = Bool.false ∧ c ≠ ']' := by
  cases h with
  | nil => exact ⟨'n', _, rfl, by decide, by decide⟩
  | true => exact ⟨'t', _, rfl, by decide, by decide⟩
  | false => exact ⟨'f', _, rfl, by decide, by decide⟩
  | string => exact ⟨doubleQuote, _, rfl, by decide, by decide⟩
  | symbol => exact ⟨':', _, rfl, by decide, by decide⟩
  | array => exact ⟨'[', _, rfl, by decide, by decide⟩
  | @int n =>
      obtain ⟨c, rest, hwritten, -, hfirst⟩ := Numeral.decimalInt_cases n
      refine ⟨c, rest, hwritten, ?_⟩
      rcases hfirst with hdigit | ⟨rfl, -⟩
      · refine ⟨isBlank_of_isDigit hdigit, ?_⟩
        rintro rfl
        exact absurd hdigit (by decide)
      · decide

end Literal

namespace Source

open Literal (Readable writtenItems)

variable {lit : Literal} {text rest : List Char}

/-! ### What is written stays in its line -/

namespace InLine

/-- Brackets stay in their line, and so does what stands between names and literals. -/
theorem separators (htext : text.all (fun c => ['[', ']', ',', ' ', ':', '='].contains c) = true) :
    InLine text := by
  refine .of_chars fun c hc => ?_
  have hmem := List.contains_iff_mem.mp (List.all_eq_true.mp htext c hc)
  simp only [List.mem_cons, List.not_mem_nil, or_false] at hmem
  rcases hmem with rfl | rfl | rfl | rfl | rfl | rfl <;> decide

/-- Words stay in their line, and so do names with a mark at their end. -/
theorem word (htext : ∀ c ∈ text, isWordChar c = true ∨ c = '?' ∨ c = '!' ∨ c = '-') :
    InLine text := by
  refine .of_chars fun c hc hlisted => ?_
  simp only [List.mem_cons, List.not_mem_nil, or_false] at hlisted
  rcases hlisted with rfl | rfl | rfl | rfl <;> exact absurd (htext _ hc) (by decide)

/-- A word stays in its line. -/
theorem letters (htext : text.all isWordChar = true) : InLine text :=
  .word fun c hc => .inl (List.all_eq_true.mp htext c hc)

/-- A plain name stays in its line, if it does not end with an equals sign. -/
theorem plainName {name : List Char} (hname : isPlainName name = true)
    (hequals : name.getLast? ≠ some '=') : InLine name := by
  refine word fun d hd => ?_
  obtain ⟨c, body, -, hall, rfl | ⟨mark, hmark, rfl⟩⟩ := plainName_cases hname hequals
  · exact .inl (hall d hd)
  · rcases List.mem_append.mp hd with hbody | hlast
    · exact .inl (hall d hbody)
    · obtain rfl := List.mem_singleton.mp hlast
      rcases hmark with hmark | hmark
      · exact .inr (.inl hmark)
      · exact .inr (.inr (.inl hmark))

/-- Texts with commas between them stay in their line, if each of them does. -/
theorem intercalate {texts : List (List Char)} (htexts : ∀ text ∈ texts, InLine text) :
    InLine ([',', ' '].intercalate texts) := by
  induction texts with
  | nil =>
      rw [List.intercalate_nil]
      exact .separators (by simp)
  | cons first rest ih =>
      have hfirst := htexts first List.mem_cons_self
      cases rest with
      | nil => rwa [List.intercalate_singleton]
      | cons second rest =>
          rw [List.intercalate_cons_cons]
          have hcomma : InLine [',', ' '] := .separators (by decide)
          exact (hfirst.append hcomma).append (ih fun text htext =>
            htexts text (List.mem_cons_of_mem first htext))

/-- **What is written stays in its line.** -/
theorem written (h : Readable lit) : InLine lit.written := by
  induction h with
  | nil | true | false => exact .letters (by decide)
  | @int n =>
      refine .word fun d hd => ?_
      have hword : ∀ c, isDigit c = true → isWordChar c = true := fun _ => isWordChar_of_isDigit
      obtain ⟨c, rest, hwritten, hrest, hfirst⟩ := Numeral.decimalInt_cases n
      change d ∈ Numeral.decimalInt n at hd
      rw [hwritten] at hd
      rcases List.mem_cons.mp hd with rfl | hmem
      · rcases hfirst with hdigit | ⟨hminus, -⟩
        · exact .inl (hword _ hdigit)
        · exact .inr (.inr (.inr hminus))
      · exact .inl (hword d (hrest d hmem))
  | string htext => exact .quote htext
  | @symbol name hname hequals =>
      have hcolon : InLine [':'] := .separators (by decide)
      change InLine (':' :: if isPlainName name then name else Text.quote name)
      by_cases hplain : isPlainName name = true
      · rw [if_pos hplain]
        exact hcolon.append (.plainName hplain (hequals hplain))
      · rw [if_neg hplain]
        exact hcolon.append (.quote hname)
  | @array items hitems ih =>
      have hopen : InLine ['['] := .separators (by decide)
      have hclose : InLine [']'] := .separators (by decide)
      have hall : ∀ text ∈ writtenItems items, InLine text := by
        intro text htext
        rw [Literal.writtenItems_eq] at htext
        obtain ⟨item, hitem, rfl⟩ := List.mem_map.mp htext
        exact ih item hitem
      exact hopen.append ((InLine.intercalate hall).append hclose)

end InLine

/-! ### What is written is read -/

/-- What ends a literal does not go on with a word. -/
theorem EndsLiteral.noWord (h : EndsLiteral rest) :
    ∀ c, rest.head? = some c → isWordChar c = false ∧ c ≠ '?' ∧ c ≠ '!' := by
  intro c hc
  rcases h c hc with rfl | rfl <;> decide

/-- A keyword is read where a literal ends behind it. -/
theorem keyword?_append {first : Char} (hfirst : isBlank first = false) (word : List Char)
    (h : EndsLiteral rest) : keyword? (first :: word) (first :: word ++ rest) = some rest := by
  unfold keyword?
  rw [token?_append hfirst]
  simp only
  refine if_neg ?_
  cases rest with
  | nil => simp
  | cons c more => simp [(h.noWord c rfl).1]

/-- A keyword is not read where another character comes. -/
theorem keyword?_of_ne {first c : Char} (hc : isBlank c = false) (hne : first ≠ c)
    (word text : List Char) : keyword? (first :: word) (c :: text) = none := by
  unfold keyword?
  rw [token?_of_ne hc hne]

/-- A literal may have a space before it. -/
theorem literal_blank (fuel : Nat) (text : List Char) :
    literal fuel (' ' :: text) = literal fuel text := by
  cases fuel with
  | zero =>
      unfold literal unexpected firstToken?
      rw [trimStart_blank]
  | succ fuel => rw [literal, literal, trimStart_blank]

/-- So may the rest of an array. -/
theorem items_blank (fuel : Nat) (text : List Char) :
    items fuel (' ' :: text) = items fuel text := by
  cases fuel with
  | zero =>
      unfold items unexpected firstToken?
      rw [trimStart_blank]
  | succ fuel => rw [items, items, literal_blank]

/-- The literal is read as it was written, whatever ends it. -/
def ReadsBack (lit : Literal) : Prop :=
  ∀ fuel rest, 2 * lit.written.length ≤ fuel → EndsLiteral rest →
    literal fuel (lit.written ++ rest) = .ok (lit, rest)

/-- Items that are read as they were written are read one after the other. -/
theorem items_written {list : List Literal} (hsome : list ≠ [])
    (hitems : ∀ item ∈ list, ReadsBack item) (fuel : Nat)
    (hfuel : 2 * ([',', ' '].intercalate (writtenItems list)).length + 1 ≤ fuel)
    (rest : List Char) :
    items fuel ([',', ' '].intercalate (writtenItems list) ++ ']' :: rest) = .ok (list, rest) := by
  induction list generalizing fuel with
  | nil => exact absurd rfl hsome
  | cons item others ih =>
      obtain ⟨fuel, rfl⟩ : ∃ fewer, fuel = fewer + 1 := ⟨fuel - 1, by omega⟩
      have hitem := hitems item List.mem_cons_self
      cases others with
      | nil =>
          have hends : EndsLiteral (']' :: rest) := fun c hc => .inr (Option.some.inj hc).symm
          have hclose : token? [']'] (']' :: rest) = some rest :=
            token?_append (by decide) [] rest
          simp only [writtenItems, List.intercalate_singleton] at hfuel ⊢
          rw [items, hitem fuel (']' :: rest) (by omega) hends]
          simp only [hclose]
      | cons next others =>
          -- The list after the comma, a blank before it.
          have hmore := fun fewer hfewer => ih (by simp)
            (fun other hother => hitems other (List.mem_cons_of_mem item hother)) fewer hfewer
          have hsplit : [',', ' '].intercalate (writtenItems (item :: next :: others)) =
              item.written ++ [',', ' '] ++
                [',', ' '].intercalate (writtenItems (next :: others)) := by
            simp only [writtenItems, List.intercalate_cons_cons]
          rw [hsplit] at hfuel ⊢
          generalize [',', ' '].intercalate (writtenItems (next :: others)) = tail at hfuel hmore ⊢
          simp only [List.length_append, List.length_cons, List.length_nil] at hfuel
          have hends : EndsLiteral (',' :: ' ' :: (tail ++ ']' :: rest)) :=
            fun c hc => .inl (Option.some.inj hc).symm
          have hopen : token? [']'] (',' :: ' ' :: (tail ++ ']' :: rest)) = none :=
            token?_of_ne (by decide) (by decide) [] _
          have hcomma : token? [','] (',' :: ' ' :: (tail ++ ']' :: rest)) =
              some (' ' :: (tail ++ ']' :: rest)) := token?_append (by decide) [] _
          rw [List.append_assoc, List.append_assoc, List.cons_append, List.singleton_append, items,
            hitem fuel _ (by omega) hends]
          simp only [hopen, hcomma, items_blank, hmore fuel (by omega)]

/-- The words are no other literal's beginning. -/
theorem literal_word {c : Char} (hc : c = 'n' ∨ c = 't' ∨ c = 'f') (fuel : Nat)
    (text : List Char) : literal (fuel + 1) (c :: text) = wordLiteral (c :: text) := by
  have hblank : isBlank c = false := by
    rcases hc with rfl | rfl | rfl <;> decide
  rw [literal, trimStart_cons hblank]
  rcases hc with rfl | rfl | rfl <;> rfl

/-- A literal with a sign or a digit at its front is a number. -/
theorem literal_number {c : Char} {more rest : List Char}
    (hfirst : isDigit c = true ∨ c = '-' ∧ more ≠ [])
    (hmore : ∀ d ∈ more, isDigit d = true) (fuel : Nat) :
    literal (fuel + 1) (c :: (more ++ rest)) = number c (more ++ rest) := by
  have hother : ∀ mark, isDigit mark = false → mark ≠ '-' → c ≠ mark := by
    intro mark hdigit hminus
    rcases hfirst with h | ⟨rfl, -⟩
    · exact ne_of_isDigit h hdigit
    · exact hminus.symm
  have hdouble : c ≠ doubleQuote := hother doubleQuote (by decide) (by decide)
  have hsingle : c ≠ singleQuote := hother singleQuote (by decide) (by decide)
  have hcolon : c ≠ ':' := hother ':' (by decide) (by decide)
  have hbracket : c ≠ '[' := hother '[' (by decide) (by decide)
  have hblank : isBlank c = false := by
    rcases hfirst with h | ⟨rfl, -⟩
    · exact isBlank_of_isDigit h
    · decide
  have hnumber :
      (isDigit c || ((c == '-' || c == '+') && (more ++ rest).head?.any isDigit)) = true := by
    rcases hfirst with h | ⟨rfl, hsome⟩
    · simp [h]
    · cases more with
      | nil => exact absurd rfl hsome
      | cons d more => simp [hmore d List.mem_cons_self]
  rw [literal, trimStart_cons hblank]
  simp only
  rw [if_neg (by simp [hdouble, hsingle]), if_neg hcolon, if_neg hbracket, if_pos hnumber]

/-- A word is read as the literal it is. -/
theorem wordLiteral_written (word : List Char) (h : EndsLiteral rest)
    (hword : (word, lit) ∈ [("nil".toList, Literal.nil), ("true".toList, .true),
      ("false".toList, .false)]) : wordLiteral (word ++ rest) = .ok (lit, rest) := by
  simp only [List.mem_cons, Prod.mk.injEq, List.not_mem_nil, or_false] at hword
  have hnil : ∀ c text, isBlank c = false → 'n' ≠ c → keyword? "nil".toList (c :: text) = none :=
    fun c text hc hne => keyword?_of_ne hc hne "il".toList text
  have htrue : ∀ c text, isBlank c = false → 't' ≠ c → keyword? "true".toList (c :: text) = none :=
    fun c text hc hne => keyword?_of_ne hc hne "rue".toList text
  unfold wordLiteral
  rcases hword with ⟨rfl, rfl⟩ | ⟨rfl, rfl⟩ | ⟨rfl, rfl⟩
  · rw [show keyword? "nil".toList ("nil".toList ++ rest) = some rest from
      keyword?_append (by decide) "il".toList h]
  · rw [show keyword? "nil".toList ("true".toList ++ rest) = none from
        hnil 't' _ (by decide) (by decide),
      show keyword? "true".toList ("true".toList ++ rest) = some rest from
        keyword?_append (by decide) "rue".toList h]
  · rw [show keyword? "nil".toList ("false".toList ++ rest) = none from
        hnil 'f' _ (by decide) (by decide),
      show keyword? "true".toList ("false".toList ++ rest) = none from
        htrue 'f' _ (by decide) (by decide),
      show keyword? "false".toList ("false".toList ++ rest) = some rest from
        keyword?_append (by decide) "alse".toList h]

/-- A plain name starts as an identifier does. -/
theorem plainName_head {name : List Char} (hname : isPlainName name = true)
    (hequals : name.getLast? ≠ some '=') : ∃ c more, name = c :: more ∧ isNameStart c = true := by
  obtain ⟨c, body, hstart, -, rfl | ⟨mark, -, rfl⟩⟩ := plainName_cases hname hequals
  · exact ⟨c, body, rfl, hstart⟩
  · exact ⟨c, body ++ [mark], rfl, hstart⟩

/-- A symbol is read as it was written. -/
theorem symbolName_written {name : List Char} (hname : ∀ c ∈ name, isLegible c = true)
    (hequals : isPlainName name = true → name.getLast? ≠ some '=') (h : EndsLiteral rest) :
    symbolName ((if isPlainName name then name else quote name) ++ rest) =
      .ok (.symbol name, rest) := by
  by_cases hplain : isPlainName name = true
  · obtain ⟨c, more, hcons, hstart⟩ := plainName_head hplain (hequals hplain)
    have hread := identifier?_append hplain (hequals hplain) h.noWord
    have hquotes : ¬(c = doubleQuote ∨ c = singleQuote) := by
      rintro (rfl | rfl) <;> exact absurd hstart (by decide)
    rw [if_pos hplain]
    subst hcons
    unfold symbolName
    rw [hread, List.cons_append]
    simp only [if_neg hquotes]
  · rw [if_neg hplain]
    have hread := quotedText_quote hname rest
    unfold Text.quote symbolName
    simp only [List.cons_append, List.append_assoc, List.nil_append, true_or, if_true, hread]

/-- Something is written, so there is fuel. -/
theorem ReadsBack.of_succ (h : Readable lit)
    (hread : ∀ fuel rest, 2 * lit.written.length ≤ fuel + 1 → EndsLiteral rest →
      literal (fuel + 1) (lit.written ++ rest) = .ok (lit, rest)) : ReadsBack lit := by
  obtain ⟨c, more, hwritten, -⟩ := h.written_head
  intro fuel rest hfuel hrest
  have hsome : 1 ≤ lit.written.length := by
    rw [hwritten]
    exact Nat.succ_le_succ (Nat.zero_le _)
  obtain ⟨fuel, rfl⟩ : ∃ fewer, fuel = fewer + 1 := ⟨fuel - 1, by omega⟩
  exact hread fuel rest hfuel hrest

/-- An array is read as it was written if its items are. -/
theorem readsBack_array {list : List Literal} (hlist : ∀ item ∈ list, Readable item)
    (hitems : ∀ item ∈ list, ReadsBack item) : ReadsBack (.array list) := by
  refine .of_succ (.array hlist) fun fuel rest hfuel _ => ?_
  simp only [Literal.written, List.length_cons, List.length_append, List.length_nil] at hfuel
  have hbracket : ¬('[' = doubleQuote ∨ '[' = singleQuote) ∧ '[' ≠ ':' ∧ isBlank '[' = false := by
    decide
  obtain ⟨hquotes, hcolon, hblank⟩ := hbracket
  rw [Literal.written, List.cons_append, List.append_assoc, List.singleton_append, literal,
    trimStart_cons hblank]
  simp only [if_neg hquotes, if_neg hcolon, if_true]
  cases list with
  | nil =>
      have hclose : token? [']'] (']' :: rest) = some rest := token?_append (by decide) [] rest
      simp only [writtenItems, List.intercalate_nil, List.nil_append, hclose]
  | cons first others =>
      have hread := items_written (by simp) hitems fuel (by omega) rest
      have hopen : token? [']']
          ([',', ' '].intercalate (writtenItems (first :: others)) ++ ']' :: rest) = none := by
        obtain ⟨c, more, hwritten, hc, hne⟩ := (hlist first List.mem_cons_self).written_head
        cases others with
        | nil =>
            simp only [writtenItems, List.intercalate_singleton, hwritten, List.cons_append]
            exact token?_of_ne hc hne.symm [] _
        | cons second others =>
            simp only [writtenItems, List.intercalate_cons_cons, hwritten, List.cons_append]
            exact token?_of_ne hc hne.symm [] _
      simp only [hopen, hread]

/-- **A literal is read as it was written**, by induction on the literal. -/
theorem literal_written (h : Readable lit) : ReadsBack lit := by
  induction h with
  | nil =>
      refine .of_succ .nil fun fuel rest _ hrest => ?_
      exact (literal_word (.inl rfl) fuel _).trans
        (wordLiteral_written "nil".toList hrest (by simp))
  | true =>
      refine .of_succ .true fun fuel rest _ hrest => ?_
      exact (literal_word (.inr (.inl rfl)) fuel _).trans
        (wordLiteral_written "true".toList hrest (by simp))
  | false =>
      refine .of_succ .false fun fuel rest _ hrest => ?_
      exact (literal_word (.inr (.inr rfl)) fuel _).trans
        (wordLiteral_written "false".toList hrest (by simp))
  | @int n hn =>
      refine .of_succ (.int hn) fun fuel rest _ hrest => ?_
      obtain ⟨c, more, hwritten, hmore, hfirst⟩ := Numeral.decimalInt_cases n
      rw [Literal.written, hwritten, List.cons_append, literal_number hfirst hmore fuel]
      exact number_decimalInt hn hwritten hmore hrest
  | @string text htext =>
      refine .of_succ (.string htext) fun fuel rest _ _ => ?_
      have hread := quotedText_quote htext rest
      have hblank : isBlank doubleQuote = false := by decide
      rw [Literal.written, Text.quote, List.append_assoc, List.cons_append, literal,
        trimStart_cons hblank]
      simp only [true_or, if_true, List.singleton_append, hread]
  | @symbol name hname hequals =>
      refine .of_succ (.symbol hname hequals) fun fuel rest _ hrest => ?_
      have hread := symbolName_written hname hequals hrest
      have hcolon : ¬(':' = doubleQuote ∨ ':' = singleQuote) ∧ isBlank ':' = false := by decide
      have hpath : ((if isPlainName name then name else quote name) ++ rest).head? ≠ some ':' := by
        by_cases hplain : isPlainName name = true
        · obtain ⟨c, more, hcons, hstart⟩ := plainName_head hplain (hequals hplain)
          rw [if_pos hplain, hcons]
          rintro hcolon
          obtain rfl : c = ':' := Option.some.inj hcolon
          exact absurd hstart (by decide)
        · rw [if_neg hplain]
          exact (by decide : some doubleQuote ≠ some ':')
      rw [Literal.written, quoteSymbol, List.cons_append, literal, trimStart_cons hcolon.2]
      simp only [if_neg hcolon.1, if_true, if_neg hpath, hread]
  | @array list hlist ih => exact readsBack_array hlist ih

/-- The text of a literal, read from its front. -/
theorem expression_written (h : Readable lit) :
    expression (' ' :: lit.written) = .ok (lit, []) := by
  have hends : EndsLiteral [] := fun c hc => nomatch hc
  have hread := literal_written h (2 * (' ' :: lit.written).length + 2) []
    (by rw [List.length_cons]; omega) hends
  rw [List.append_nil] at hread
  rw [expression, literal_blank, hread]

/-- The name of a constant, at the front of an assignment. -/
theorem constantName_word {c : Char} {body : List Char} (hcapital : isCapital c = true)
    (hbody : ∀ d ∈ body, isWordChar d = true) (text : List Char) :
    constantName (c :: body ++ ' ' :: text) = .ok (c :: body, ' ' :: text) := by
  have hstart : isNameStart c = true := by
    simp [isNameStart, isLetter_of_isCapital hcapital]
  have hall : ∀ d ∈ c :: body, isWordChar d = true := by
    intro d hd
    rcases List.mem_cons.mp hd with rfl | hmem
    · exact isWordChar_of_isNameStart hstart
    · exact hbody d hmem
  have hread := identifier?_word hstart hall (' ' :: text) (by
    intro d hd
    obtain rfl : ' ' = d := Option.some.inj hd
    decide)
  have hspace : ¬(' ' = '?' ∨ ' ' = '!') := by decide
  simp only [if_neg hspace] at hread
  unfold constantName
  rw [hread]
  simp [hcapital]

/-- What follows the name in an assignment. -/
theorem assignedValue_written (h : Readable lit) :
    assignedValue (" = ".toList ++ lit.written) = .ok (lit, []) := by
  have hequals : token? ['='] (' ' :: '=' :: ' ' :: lit.written) = some (' ' :: lit.written) := by
    unfold token?
    rw [trimStart_blank]
    exact token?_append (by decide) [] _
  have hnext : (' ' :: lit.written).head? ≠ some '=' :=
    fun hspace => absurd (Option.some.inj hspace) (by decide)
  change assignedValue (' ' :: '=' :: ' ' :: lit.written) = _
  unfold assignedValue
  rw [hequals]
  simp only [if_neg hnext]
  exact expression_written h

/-- The assignment is no statement of a keyword, as no keyword starts with a capital. -/
theorem statement_assignment (h : Readable lit) {c : Char} {body : List Char}
    (hcapital : isCapital c = true) (hbody : ∀ d ∈ body, isWordChar d = true) :
    statement (c :: body ++ " = ".toList ++ lit.written) =
      .ok (.setConstant (c :: body) lit, []) := by
  have hblank : isBlank c = false :=
    isBlank_of_isNameStart (by simp [isNameStart, isLetter_of_isCapital hcapital])
  have hother : ∀ first, isCapital first = false → first ≠ c := by
    rintro first hfirst rfl
    rw [hcapital] at hfirst
    cases hfirst
  have hkeyword : ∀ first word, isCapital first = false →
      ∀ text, keyword? (first :: word) (c :: text) = none :=
    fun first word hfirst text => keyword?_of_ne hblank (hother first hfirst) word text
  have hclassVar : ∀ text, token? ['@', '@'] (c :: text) = none :=
    fun text => token?_of_ne hblank (hother '@' (by decide)) ['@'] text
  have hname := constantName_word hcapital hbody ('=' :: ' ' :: lit.written)
  have hvalue : assignedValue (' ' :: '=' :: ' ' :: lit.written) = .ok (lit, []) :=
    assignedValue_written h
  have htext : c :: body ++ " = ".toList ++ lit.written =
      c :: (body ++ ' ' :: '=' :: ' ' :: lit.written) := by simp
  rw [List.cons_append] at hname
  rw [htext]
  unfold statement
  rw [show keyword? "end".toList (c :: _) = none from hkeyword 'e' _ (by decide) _,
    show keyword? "class".toList (c :: _) = none from hkeyword 'c' _ (by decide) _,
    show keyword? "module".toList (c :: _) = none from hkeyword 'm' _ (by decide) _,
    show keyword? "raise".toList (c :: _) = none from hkeyword 'r' _ (by decide) _,
    show keyword? "puts".toList (c :: _) = none from hkeyword 'p' _ (by decide) _,
    show keyword? ['p'] (c :: _) = none from hkeyword 'p' _ (by decide) _]
  simp only
  unfold assignment
  rw [hclassVar, trimStart_cons hblank]
  simp only [List.head?_cons, Option.any_some, hcapital, if_true]
  unfold constantAssignment
  rw [hname]
  simp only [hvalue]

/-- **A line that assigns a written literal to a constant is read as that one statement.** -/
theorem parse_assignment (h : Readable lit) {c : Char} {body : List Char}
    (hcapital : isCapital c = true) (hbody : ∀ d ∈ body, isWordChar d = true) :
    parse (c :: body ++ " = ".toList ++ lit.written) = .ok [(1, .setConstant (c :: body) lit)] := by
  have hstart : isNameStart c = true := by simp [isNameStart, isLetter_of_isCapital hcapital]
  have hline : InLine (c :: body ++ " = ".toList ++ lit.written) := by
    have hname : InLine (c :: body) := by
      refine .word fun d hd => .inl ?_
      rcases List.mem_cons.mp hd with rfl | hmem
      · exact isWordChar_of_isNameStart hstart
      · exact hbody d hmem
    have hequals : InLine " = ".toList := .separators (by decide)
    exact (hname.append hequals).append (.written h)
  have hopen : atEnd (c :: body ++ " = ".toList ++ lit.written) = false := by
    unfold atEnd
    rw [List.cons_append, List.cons_append, trimStart_cons (isBlank_of_isNameStart hstart)]
    rfl
  have hwhole : wholeStatement (c :: body ++ " = ".toList ++ lit.written) =
      .ok (.setConstant (c :: body) lit) := by
    unfold wholeStatement
    rw [statement_assignment h hcapital hbody]
    rfl
  unfold parse
  rw [lines_of_noLineFeed (by simp) hline.noLineFeed, parseLines]
  simp only [hline.stripComment_eq, hopen, hwhole, depthAfter, parseLines, if_true]
  rfl

end Source

end EmbeddedRuby
