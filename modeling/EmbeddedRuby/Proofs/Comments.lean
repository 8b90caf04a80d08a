import Mathlib.Data.List.Basic
import Mathlib.Data.List.TakeWhile
import EmbeddedRuby.Proofs.Tokens

/-!
# Comments after statements

Where quotes open and close in a line is decided twice.  `stripComment` runs over the raw characters
with the quote it is inside of and a mark for a backslash; the readers of statements go down into
literals and meet quotes only where a text or the name of a symbol starts.  This module shows that
the two agree wherever a statement is read.

`Passes text rest` says that a reader which started at `text` stands at `rest`, and that the other
one, had it started outside of quotes, is outside of quotes there too and has met no comment.  There
is one lemma for each reader, in the order of their definitions.  As the characters outside of quotes
are blanks, letters, numerals and a few signs, a `#` there ends a statement or is a fault.

Main statement: what is read from a line as a whole statement is read from it with any comment behind
it (`wholeStatement_before_comment`).
-/

namespace EmbeddedRuby.Source

open Text

/-! ### Text in which no comment starts -/

/-- A character that neither opens quotes nor starts a comment. -/
def isPlain (c : Char) : Bool :=
  c != '#' && c != doubleQuote && c != singleQuote

/-- No comment starts in the text, and quotes that open in it are closed in it. -/
def Uncommented (text : List Char) : Prop :=
  ∀ more, stripCommentFrom none false (text ++ more) = text ++ stripCommentFrom none false more

/-- The way from `text` to `rest` leads over text in which no comment starts. -/
def Passes (text rest : List Char) : Prop :=
  ∃ front, Uncommented front ∧ text = front ++ rest

variable {text rest : List Char}

/-- Three characters are not plain: the two quotes and the number sign. -/
theorem isPlain_iff {c : Char} : isPlain c = true ↔ c ≠ '#' ∧ c ≠ doubleQuote ∧ c ≠ singleQuote := by
  simp [isPlain, and_assoc]

/-- A class of characters is plain if it has none of the three that are not. -/
theorem isPlain_of_class {isMember : Char → Bool} (hhash : isMember '#' = false)
    (hdouble : isMember doubleQuote = false) (hsingle : isMember singleQuote = false) {c : Char}
    (hc : isMember c = true) : isPlain c = true := by
  rw [isPlain_iff]
  refine ⟨?_, ?_, ?_⟩ <;> rintro rfl <;> simp_all

/-- Blanks are plain. -/
theorem isPlain_of_isBlank {c : Char} (hc : isBlank c = true) : isPlain c = true :=
  isPlain_of_class (by decide) (by decide) (by decide) hc

/-- The characters of words are plain. -/
theorem isPlain_of_isWordChar {c : Char} (hc : isWordChar c = true) : isPlain c = true :=
  isPlain_of_class (by decide) (by decide) (by decide) hc

/-- In plain text no quotes open and no comment starts. -/
theorem Uncommented.of_plain (htext : ∀ c ∈ text, isPlain c = true) : Uncommented text := by
  intro more
  induction text with
  | nil => rfl
  | cons c text ih =>
      obtain ⟨hhash, hdouble, hsingle⟩ := isPlain_iff.mp (htext c List.mem_cons_self)
      rw [List.cons_append, stripCommentFrom, if_neg (by simp [hdouble, hsingle]), if_neg hhash,
        ih fun d hd => htext d (List.mem_cons_of_mem c hd), List.cons_append]

namespace Passes

variable {middle : List Char}

/-- A reader that stays where it is passes nothing. -/
theorem refl (text : List Char) : Passes text text :=
  ⟨[], fun _ => rfl, rfl⟩

/-- Ways over text without comments go on in one another. -/
theorem trans (hfirst : Passes text middle) (hsecond : Passes middle rest) : Passes text rest := by
  obtain ⟨front, hfront, rfl⟩ := hfirst
  obtain ⟨back, hback, rfl⟩ := hsecond
  refine ⟨front ++ back, fun more => ?_, (List.append_assoc front back rest).symm⟩
  rw [List.append_assoc, hfront, hback, List.append_assoc]

/-- Plain text is passed. -/
theorem of_plain {front : List Char} (hfront : ∀ c ∈ front, isPlain c = true) :
    Passes (front ++ rest) rest :=
  ⟨front, Uncommented.of_plain hfront, rfl⟩

/-- A plain character is passed on the way to what comes after it. -/
theorem of_cons {c : Char} (hc : isPlain c = true) (h : Passes text rest) :
    Passes (c :: text) rest := by
  have hfirst : Passes ([c] ++ text) text := of_plain (by simpa using hc)
  exact hfirst.trans h

/-- Blanks are passed. -/
theorem trimStart (text : List Char) : Passes text (trimStart text) := by
  have hblanks : ∀ c ∈ text.takeWhile isBlank, isPlain c = true := fun c hc =>
    isPlain_of_isBlank (List.mem_takeWhile_imp hc)
  have hpassed : Passes (text.takeWhile isBlank ++ text.dropWhile isBlank)
      (text.dropWhile isBlank) := of_plain hblanks
  rwa [List.takeWhile_append_dropWhile] at hpassed

/-- A reader that goes on after the blanks passes the blanks too. -/
theorem of_trimStart (h : Passes (Text.trimStart text) rest) : Passes text rest :=
  (trimStart text).trans h

/-- A line that is passed to its end is stripped of nothing. -/
theorem stripComment_eq (h : Passes text []) : stripComment text = text := by
  obtain ⟨front, hfront, hwhole⟩ := h
  rw [List.append_nil] at hwhole
  subst hwhole
  have hkept := hfront []
  rwa [List.append_nil, stripCommentFrom, List.append_nil] at hkept

/-- A line that is passed to its end is stripped of just the comment behind it. -/
theorem stripComment_comment (h : Passes text []) (comment : List Char) :
    stripComment (text ++ '#' :: comment) = text := by
  obtain ⟨front, hfront, hwhole⟩ := h
  rw [List.append_nil] at hwhole
  subst hwhole
  have hcomment : stripCommentFrom none false ('#' :: comment) = [] := by
    rw [stripCommentFrom, if_neg (by decide), if_pos rfl]
  rw [stripComment, hfront, hcomment, List.append_nil]

end Passes

/-! ### Tokens and names -/

/-- A token of plain characters is passed. -/
theorem token?_passes {token : List Char} (htoken : token.all isPlain = true)
    (h : token? token text = some rest) : Passes text rest := by
  apply Passes.of_trimStart
  rw [dropFront?_eq_some_iff.mp h]
  exact .of_plain (List.all_eq_true.mp htoken)

/-- A keyword is passed: it is a token that no word goes on from. -/
theorem keyword?_passes {word : List Char} (hword : word.all isPlain = true)
    (h : keyword? word text = some rest) : Passes text rest := by
  unfold keyword? at h
  split at h
  · rename_i after hfound
    split at h
    · cases h
    · cases h
      exact token?_passes hword hfound
  · cases h

/-- An identifier is made of the characters of words, with a mark behind it at most. -/
theorem identifier?_passes {name : List Char} (h : identifier? text = some (name, rest)) :
    Passes text rest := by
  apply Passes.of_trimStart
  unfold identifier? at h
  generalize trimStart text = text at h ⊢
  dsimp only at h
  split at h
  · have hword : ∀ c ∈ text.takeWhile isWordChar, isPlain c = true := fun c hc =>
      isPlain_of_isWordChar (List.mem_takeWhile_imp hc)
    have hpassed : Passes text (text.dropWhile isWordChar) := by
      have hwhole : Passes (text.takeWhile isWordChar ++ text.dropWhile isWordChar)
          (text.dropWhile isWordChar) := .of_plain hword
      rwa [List.takeWhile_append_dropWhile] at hwhole
    split at h
    · rename_i c after hafter
      rw [hafter] at hpassed
      split at h
      · rename_i hmark
        cases h
        refine hpassed.trans (.of_cons ?_ (.refl _))
        rcases hmark with rfl | rfl <;> decide
      · cases h
        exact hpassed
    · rename_i hafter
      cases h
      rwa [hafter] at hpassed
  · cases h

/-- The name of a constant is an identifier. -/
theorem constantName_passes {name : List Char} (h : constantName text = .ok (name, rest)) :
    Passes text rest := by
  unfold constantName at h
  split at h
  · rename_i hfound
    split at h
    · cases h
      exact identifier?_passes hfound
    · cases h
  · cases h

/-- The rest of a path is double colons and names, by induction on the fuel. -/
theorem pathRest_passes {fuel : Nat} {names : List (List Char)}
    (h : pathRest fuel text = .ok (names, rest)) : Passes text rest := by
  induction fuel generalizing text names with
  | zero =>
      cases h
      exact .refl _
  | succ fuel ih =>
      unfold pathRest at h
      split at h
      · cases h
        exact .refl _
      · rename_i htoken
        split at h
        · cases h
        · rename_i hname
          split at h
          · cases h
          · rename_i hrest
            cases h
            exact ((token?_passes (by decide) htoken).trans (constantName_passes hname)).trans
              (ih hrest)

/-- A path is a name and its rest. -/
theorem constantPath_passes {path : List (List Char)} (h : constantPath text = .ok (path, rest)) :
    Passes text rest := by
  unfold constantPath at h
  split at h
  rename_i front start hcolons
  have hstart : Passes text start := by
    split at hcolons
    · rename_i htoken
      cases hcolons
      exact token?_passes (by decide) htoken
    · cases hcolons
      exact .refl text
  split at h
  · cases h
  · rename_i hname
    split at h
    · cases h
    · rename_i hrest
      cases h
      exact (hstart.trans (constantName_passes hname)).trans (pathRest_passes hrest)

/-! ### Literals -/

/-- Between quotes both readers take a backslash with the character behind it, and stop at the same
quote. -/
theorem quotedText_inside {quote : Char} (hquote : quote ≠ '\\') {content : List Char}
    (h : quotedText quote text = .ok (content, rest)) :
    ∃ front, text = front ++ rest ∧
      ∀ more, stripCommentFrom (some quote) false (front ++ more) =
        front ++ stripCommentFrom none false more := by
  induction text using quotedText.induct quote generalizing content with
  | case1 => cases h
  | case2 after =>
      rw [quotedText.eq_def] at h
      simp only [↓reduceIte] at h
      cases h
      exact ⟨[quote], rfl, fun more => by
        rw [List.singleton_append, stripCommentFrom, if_neg hquote, if_pos rfl,
          List.singleton_append]⟩
  | case3 hne =>
      rw [quotedText, if_neg hne, if_pos rfl] at h
      cases h
  | case4 escaped after fault hrest hne =>
      rw [quotedText, if_neg hne, if_pos rfl] at h
      simp only [hrest] at h
      cases h
  | case5 escaped after inner remaining hrest hne ih =>
      rw [quotedText, if_neg hne, if_pos rfl] at h
      simp only [hrest] at h
      cases h
      obtain ⟨front, rfl, hfront⟩ := ih hrest
      refine ⟨'\\' :: escaped :: front, rfl, fun more => ?_⟩
      rw [List.cons_append, stripCommentFrom, if_pos rfl, List.cons_append, stripCommentFrom,
        hfront, List.cons_append, List.cons_append]
  | case6 c after hne hbackslash fault hrest =>
      rw [quotedText.eq_def] at h
      simp only [if_neg hne, if_neg hbackslash, hrest] at h
      cases h
  | case7 c after hne hbackslash inner remaining hrest ih =>
      rw [quotedText.eq_def] at h
      simp only [if_neg hne, if_neg hbackslash, hrest] at h
      cases h
      obtain ⟨front, rfl, hfront⟩ := ih hrest
      refine ⟨c :: front, rfl, fun more => ?_⟩
      rw [List.cons_append, stripCommentFrom, if_neg hbackslash, if_neg hne, hfront,
        List.cons_append]

/-- A text with its quotes is passed. -/
theorem quotedText_passes {quote : Char} (hquote : quote = doubleQuote ∨ quote = singleQuote)
    {content : List Char} (h : quotedText quote text = .ok (content, rest)) :
    Passes (quote :: text) rest := by
  have hne : quote ≠ '\\' := by
    rcases hquote with rfl | rfl <;> decide
  obtain ⟨front, rfl, hfront⟩ := quotedText_inside hne h
  refine ⟨quote :: front, fun more => ?_, rfl⟩
  rw [List.cons_append, stripCommentFrom, if_pos hquote, hfront, List.cons_append]

/-- A number does not go on with a character that is not plain. -/
theorem isPlain_of_step {s next : NumberState} {c : Char} {after : List Char}
    (h : s.step c after = some next) : isPlain c = true := by
  have hstop : ∀ c ∈ ['#', doubleQuote, singleQuote], s.step c after = none := by
    intro c hc
    simp only [List.mem_cons, List.not_mem_nil, or_false] at hc
    rcases hc with rfl | rfl | rfl <;>
      simp [NumberState.step, isDigit, isHexLetter, doubleQuote, singleQuote]
  rw [isPlain_iff]
  refine ⟨?_, ?_, ?_⟩ <;>
  · rintro rfl
    rw [hstop _ (by simp)] at h
    cases h

/-- The characters of a number are plain, by induction over the text. -/
theorem numberChars_passes {s : NumberState} {chars : List Char} {float : Bool}
    (h : numberChars s text = (chars, float, rest)) : Passes text rest := by
  induction text generalizing s chars with
  | nil =>
      cases h
      exact .refl []
  | cons c text ih =>
      rw [numberChars] at h
      split at h
      · cases h
        exact .refl _
      · rename_i hstep
        cases h
        exact .of_cons (isPlain_of_step hstep) (ih rfl)

/-- A number is passed, as its characters are. -/
theorem number_passes {first : Char} {value : Literal}
    (h : number first text = .ok (value, rest)) : Passes text rest := by
  unfold number at h
  cases hchars : numberChars ⟨first, false, false⟩ text with
  | mk chars after =>
      obtain ⟨float, after⟩ := after
      simp only [hchars] at h
      split at h
      · cases h
        exact numberChars_passes hchars
      · cases h

/-- The name of a symbol is a text in quotes or an identifier. -/
theorem symbolName_passes {value : Literal} (h : symbolName text = .ok (value, rest)) :
    Passes text rest := by
  unfold symbolName at h
  dsimp only at h
  split at h
  case' h_1 =>
    split at h
    case isTrue hquote =>
      split at h
      · rename_i hquoted
        cases h
        exact quotedText_passes hquote hquoted
      · cases h
  all_goals
    split at h
    · rename_i hfound
      cases h
      exact identifier?_passes hfound
    · cases h

/-- `nil`, `true` and `false` are keywords. -/
theorem wordLiteral_passes {value : Literal} (h : wordLiteral text = .ok (value, rest)) :
    Passes text rest := by
  unfold wordLiteral at h
  split at h
  · rename_i hword
    cases h
    exact keyword?_passes (by decide) hword
  · split at h
    · rename_i hword
      cases h
      exact keyword?_passes (by decide) hword
    · split at h
      · rename_i hword
        cases h
        exact keyword?_passes (by decide) hword
      · cases h

/-- A number starts with a digit or a sign, and neither opens a quotation or a comment. -/
theorem isPlain_of_numberStart {c : Char} {after : List Char}
    (hnumber : (isDigit c || ((c == '-' || c == '+') && after.head?.any isDigit)) = true) :
    isPlain c = true := by
  rcases Bool.or_eq_true_iff.mp hnumber with hdigit | hsign
  · exact isPlain_of_isWordChar (isWordChar_of_isDigit hdigit)
  · simp only [Bool.and_eq_true, Bool.or_eq_true, beq_iff_eq] at hsign
    rcases hsign.1 with rfl | rfl <;> decide

/-- The readers of literals, and of the rest of an array, pass over what they read. -/
structure LiteralsPass (fuel : Nat) : Prop where
  literal : ∀ {text value rest}, literal fuel text = .ok (value, rest) → Passes text rest
  items : ∀ {text values rest}, items fuel text = .ok (values, rest) → Passes text rest

/-- A literal is passed, if with less fuel its parts are. -/
theorem LiteralsPass.literal_succ {fuel : Nat} (hpass : LiteralsPass fuel) {value : Literal}
    (h : Source.literal (fuel + 1) text = .ok (value, rest)) : Passes text rest := by
  apply Passes.of_trimStart
  unfold Source.literal at h
  split at h
  · cases h
  rename_i c after htrim
  rw [htrim]
  split at h
  · -- a string
    rename_i hquote
    split at h
    · rename_i hquoted
      cases h
      exact quotedText_passes hquote hquoted
    · cases h
  split at h
  · rename_i hcolon
    subst hcolon
    split at h
    · -- a path that starts with two colons
      split at h
      · rename_i hpath
        cases h
        exact constantPath_passes hpath
      · cases h
    · exact .of_cons (by decide) (symbolName_passes h)
  split at h
  · -- an array
    rename_i hbracket
    subst hbracket
    split at h
    · rename_i hclosed
      cases h
      exact .of_cons (by decide) (token?_passes (by decide) hclosed)
    · split at h
      · rename_i hitems
        cases h
        exact .of_cons (by decide) (hpass.items hitems)
      · cases h
  split at h
  · rename_i hnumber
    exact .of_cons (isPlain_of_numberStart hnumber) (number_passes h)
  split at h
  · split at h
    · rename_i hpath
      cases h
      exact constantPath_passes hpath
    · cases h
  · exact wordLiteral_passes h

/-- The rest of an array is passed, if with less fuel its parts are. -/
theorem LiteralsPass.items_succ {fuel : Nat} (hpass : LiteralsPass fuel) {values : List Literal}
    (h : Source.items (fuel + 1) text = .ok (values, rest)) : Passes text rest := by
  unfold Source.items at h
  split at h
  · cases h
  rename_i item after hitem
  have hfirst : Passes text after := hpass.literal hitem
  split at h
  · rename_i hclosed
    cases h
    exact hfirst.trans (token?_passes (by decide) hclosed)
  split at h
  · cases h
  rename_i hcomma
  split at h
  · cases h
  · rename_i hitems
    cases h
    exact (hfirst.trans (token?_passes (by decide) hcomma)).trans (hpass.items hitems)

/-- Literals and the rest of an array are read together; the induction is on the fuel, which both
give on to each other. -/
theorem literalsPass (fuel : Nat) : LiteralsPass fuel := by
  induction fuel with
  | zero =>
      refine ⟨fun {text value rest} h => ?_, fun {text values rest} h => ?_⟩
      · cases h
      · cases h
  | succ fuel hpass => exact ⟨hpass.literal_succ, hpass.items_succ⟩

/-- An expression is a literal, read with enough fuel. -/
theorem expression_passes {value : Literal} (h : expression text = .ok (value, rest)) :
    Passes text rest :=
  (literalsPass _).literal h

/-! ### Statements -/

/-- Arguments are literals with commas between them, by induction on the fuel. -/
theorem argumentList_passes {fuel : Nat} {values : List Literal}
    (h : argumentList fuel text = .ok (values, rest)) : Passes text rest := by
  induction fuel generalizing text values with
  | zero => cases h
  | succ fuel ih =>
      unfold argumentList at h
      split at h
      · cases h
      rename_i hitem
      split at h
      · cases h
        exact expression_passes hitem
      rename_i hcomma
      split at h
      · cases h
      · rename_i hitems
        cases h
        exact ((expression_passes hitem).trans (token?_passes (by decide) hcomma)).trans (ih hitems)

/-- Arguments are passed, in parentheses or without them. -/
theorem arguments_passes {values : List Literal} (h : arguments text = .ok (values, rest)) :
    Passes text rest := by
  unfold arguments at h
  split at h
  · cases h
    exact .trimStart text
  · exact argumentList_passes h

/-- What is assigned stands behind an equals sign. -/
theorem assignedValue_passes {value : Literal} (h : assignedValue text = .ok (value, rest)) :
    Passes text rest := by
  unfold assignedValue at h
  split at h
  · rename_i hequals
    split at h
    · cases h
    · exact (token?_passes (by decide) hequals).trans (expression_passes h)
  · cases h

/-- The head of a class is a name, with a path to its superclass perhaps. -/
theorem classHead_passes {statement : Statement} (h : classHead text = .ok (statement, rest)) :
    Passes text rest := by
  unfold classHead at h
  split at h
  · cases h
  rename_i hname
  split at h
  · cases h
    exact constantName_passes hname
  rename_i hless
  split at h
  · cases h
  · rename_i hpath
    cases h
    exact ((constantName_passes hname).trans (token?_passes (by decide) hless)).trans
      (constantPath_passes hpath)

/-- Behind `raise` there is a class, a message, or both. -/
theorem raiseRest_passes {statement : Statement} (h : raiseRest text = .ok (statement, rest)) :
    Passes text rest := by
  unfold raiseRest at h
  split at h
  · cases h
    exact .trimStart text
  split at h
  · split at h
    · cases h
    rename_i hpath
    split at h
    · cases h
      exact constantPath_passes hpath
    rename_i hcomma
    split at h
    · cases h
    · rename_i hmessage
      cases h
      exact ((constantPath_passes hpath).trans (token?_passes (by decide) hcomma)).trans
        (expression_passes hmessage)
  · split at h
    · cases h
    · rename_i hmessage
      cases h
      exact expression_passes hmessage

/-- Behind the two at signs there is a name and what is assigned to it. -/
theorem classVarRest_passes {statement : Statement}
    (h : classVarRest text = .ok (statement, rest)) : Passes text rest := by
  unfold classVarRest at h
  split at h
  · cases h
  rename_i hname
  split at h
  · cases h
  · rename_i hvalue
    cases h
    exact (identifier?_passes hname).trans (assignedValue_passes hvalue)

/-- A constant is assigned like a class variable. -/
theorem constantAssignment_passes {statement : Statement}
    (h : constantAssignment text = .ok (statement, rest)) : Passes text rest := by
  unfold constantAssignment at h
  split at h
  · cases h
  rename_i hname
  split at h
  · cases h
  · rename_i hvalue
    cases h
    exact (constantName_passes hname).trans (assignedValue_passes hvalue)

/-- An assignment is one of the two. -/
theorem assignment_passes {statement : Statement} (h : assignment text = .ok (statement, rest)) :
    Passes text rest := by
  unfold assignment at h
  split at h
  · rename_i hsigns
    exact (token?_passes (by decide) hsigns).trans (classVarRest_passes h)
  · split at h
    · exact constantAssignment_passes h
    · cases h

/-- A reader that gives its result in another form passes the same text. -/
theorem Passes.of_map {α β : Type} {read : Read α} {give : α → β} {value : β}
    (hread : ∀ {value rest}, read = .ok (value, rest) → Passes text rest)
    (h : read.map (fun (value, rest) => (give value, rest)) = .ok (value, rest)) :
    Passes text rest := by
  obtain ⟨result, hresult, hgiven⟩ := exists_of_map_eq_ok h
  cases hgiven
  exact hread hresult

/-- Each statement is passed, one case for each word that it can start with. -/
theorem statement_passes {read : Statement} (h : statement text = .ok (read, rest)) :
    Passes text rest := by
  have hword : ∀ {word after : List Char}, word.all isPlain = true →
      keyword? word text = some after → Passes after rest → Passes text rest :=
    fun hplain hfound hafter => (keyword?_passes hplain hfound).trans hafter
  unfold statement at h
  split at h
  · rename_i hfound
    cases h
    exact keyword?_passes (by decide) hfound
  split at h
  · rename_i hfound
    exact hword (by decide) hfound (classHead_passes h)
  split at h
  · rename_i hfound
    exact hword (by decide) hfound (.of_map constantName_passes h)
  split at h
  · rename_i hfound
    exact hword (by decide) hfound (raiseRest_passes h)
  split at h
  · rename_i hfound
    exact hword (by decide) hfound (.of_map arguments_passes h)
  split at h
  · rename_i hfound
    exact hword (by decide) hfound (.of_map arguments_passes h)
  · exact assignment_passes h

/-- A whole statement is passed to the end of its line. -/
theorem wholeStatement_passes {read : Statement} (h : wholeStatement text = .ok read) :
    Passes text [] := by
  unfold wholeStatement at h
  split at h
  · cases h
  rename_i after hstatement
  split at h
  · rename_i hend
    have hblanks : Passes after (trimStart after) := .trimStart after
    rw [List.isEmpty_iff.mp hend] at hblanks
    exact (statement_passes hstatement).trans hblanks
  · cases h

/-! ### Lines with a comment behind them -/

/-- **A comment behind a statement changes nothing.**  If a whole statement is read from a line, no
comment starts in that line, whatever stands between its quotes.  Behind it `#` and any text are
stripped, and just they: the same statement is read, wherever the line stands in a script and as a
script of its own. -/
theorem wholeStatement_before_comment {line : List Char} {read : Statement}
    (hread : wholeStatement line = .ok read) (comment : List Char) :
    stripComment line = line ∧
    stripComment (line ++ '#' :: comment) = line ∧
    wholeStatement (stripComment (line ++ '#' :: comment)) = .ok read ∧
    (∀ number depth below,
      parseLines number depth ((line ++ '#' :: comment) :: below) =
        parseLines number depth (line :: below)) ∧
    ('\n' ∉ line → '\n' ∉ comment → parse (line ++ '#' :: comment) = parse line) := by
  have hpassed : Passes line [] := wholeStatement_passes hread
  have hplain : stripComment line = line := hpassed.stripComment_eq
  have hstripped : stripComment (line ++ '#' :: comment) = line :=
    hpassed.stripComment_comment comment
  have hlines : ∀ number depth below,
      parseLines number depth ((line ++ '#' :: comment) :: below) =
        parseLines number depth (line :: below) := by
    intro number depth below
    rw [parseLines, parseLines, hstripped, hplain]
  refine ⟨hplain, hstripped, hstripped.symm ▸ hread, hlines, fun hline hcomment => ?_⟩
  have hsome : line ≠ [] := by
    rintro rfl
    cases hread
  have hone : lines (line ++ '#' :: comment) = [line ++ '#' :: comment] := by
    apply lines_of_noLineFeed (by simp)
    simp [hline, hcomment]
  rw [parse, parse, hone, lines_of_noLineFeed hsome hline, hlines]

/-- A statement whose message has quotes of both kinds, backslashes and a `#` in it. -/
def quotingLine : List Char :=
  "raise Foo, \x22it\x27s \\\x22#\\\x22\x22 ".toList

/-- A comment in which a quote opens that is not closed. -/
def quotingComment : List Char :=
  " says \x22 # so".toList

/-- The quotes, the backslashes and the `#` of this statement do not keep its comment from being
found. -/
theorem quotingLine_before_comment :
    wholeStatement quotingLine =
      .ok (.raise (some ["Foo".toList]) (some (.string "it\x27s \x22#\x22".toList))) ∧
    stripComment (quotingLine ++ '#' :: quotingComment) = quotingLine ∧
    parse (quotingLine ++ '#' :: quotingComment) = parse quotingLine := by
  have hread : wholeStatement quotingLine =
      .ok (.raise (some ["Foo".toList]) (some (.string "it\x27s \x22#\x22".toList))) := by
    cbv
  obtain ⟨-, hstripped, -, -, hparse⟩ :=
    wholeStatement_before_comment hread quotingComment
  exact ⟨hread, hstripped, hparse (by decide +kernel) (by decide +kernel)⟩

end EmbeddedRuby.Source
