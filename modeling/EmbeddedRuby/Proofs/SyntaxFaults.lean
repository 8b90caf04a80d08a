import EmbeddedRuby.Source.Reader

/-!
# The first fault of a script

Which fault a text is refused for, and on which line, is said here without running the reader through
the text.  A line has a **fault after** the lines before it if it is neither blank nor a whole
statement, or if it is an `end` and as many bodies were closed before it as were opened
(`Source.FaultAfter`).  The **first fault** of a text is on the first such line; if there is none it is
an `end` that is missing after the last line (`Source.FirstFault`).

The main statement is `Source.parse_eq_error_iff`.  The reader counts the open bodies as it goes; what
it counts is how many the lines so far have opened, less those that they have closed.
-/

namespace EmbeddedRuby.Source

/-! ### What lines say -/

/-- What a line says, if it is a whole statement beside its comment. -/
def stated? (text : List Char) : Option Statement :=
  if atEnd (stripComment text) then none else (wholeStatement (stripComment text)).toOption

/-- Does the statement open a body? -/
def opensBody : Statement → Bool
  | .openClass _ _ | .openModule _ => true
  | _ => false

/-- Does the statement close a body? -/
def closesBody : Statement → Bool
  | .close => true
  | _ => false

/-- Does the line open a body? -/
def opens (text : List Char) : Bool :=
  (stated? text).any opensBody

/-- Does the line close a body? -/
def closes (text : List Char) : Bool :=
  (stated? text).any closesBody

/-- The line cannot stand after these lines. -/
inductive FaultAfter (before : List (List Char)) (text : List Char) : SyntaxFault → Prop
  | unreadable {fault : SyntaxFault} (hsome : atEnd (stripComment text) = false)
      (hread : wholeStatement (stripComment text) = .error fault) : FaultAfter before text fault
  | strayEnd (hcloses : closes text = true) (hnone : before.countP opens ≤ before.countP closes) :
      FaultAfter before text .strayEnd

/-- Each of the lines can stand after those before it. -/
def Clean (texts : List (List Char)) : Prop :=
  ∀ before text after fault, texts = before ++ text :: after → ¬FaultAfter before text fault

/-- The fault that comes first in these lines. -/
inductive FirstFault (texts : List (List Char)) : SyntaxError → Prop
  | onLine {before after : List (List Char)} {text : List Char} {fault : SyntaxFault}
      (hsplit : texts = before ++ text :: after) (hclean : Clean before)
      (hfault : FaultAfter before text fault) : FirstFault texts ⟨before.length + 1, fault⟩
  | missingEnd (hclean : Clean texts) (hopen : texts.countP closes < texts.countP opens) :
      FirstFault texts ⟨texts.length, .missingEnd⟩

variable {before texts : List (List Char)} {text : List Char} {fault other : SyntaxFault}
  {e e' : SyntaxError}

theorem stated?_of_blank (hblank : atEnd (stripComment text) = true) : stated? text = none := by
  rw [stated?, if_pos hblank]

theorem stated?_of_read {statement : Statement} (hsome : ¬atEnd (stripComment text) = true)
    (hread : wholeStatement (stripComment text) = .ok statement) : stated? text = some statement := by
  rw [stated?, if_neg hsome, hread]
  rfl

/-- A line says nothing if it is not read. -/
theorem stated?_of_unreadable (hread : wholeStatement (stripComment text) = .error fault) :
    stated? text = none := by
  rw [stated?, hread]
  exact ite_self none

/-! ### Lines without faults -/

theorem clean_nil : Clean [] := by
  intro before text after fault hsplit
  simp at hsplit

/-- Lines are without faults if the last one can stand after the others. -/
theorem Clean.concat (hclean : Clean before) (hlast : ∀ fault, ¬FaultAfter before text fault) :
    Clean (before ++ [text]) := by
  intro front middle after fault hsplit
  rcases List.eq_nil_or_concat after with rfl | ⟨more, last, rfl⟩
  · obtain ⟨rfl, hsame⟩ := List.append_inj' hsplit rfl
    cases hsame
    exact hlast fault
  · have hinside : before ++ [text] = (front ++ middle :: more) ++ [last] := by
      rw [hsplit, List.append_assoc, List.cons_append, List.concat_eq_append]
    exact hclean front middle more fault (List.append_inj' hinside rfl).1

/-- A line has one fault at most. -/
theorem FaultAfter.unique (h : FaultAfter before text fault) (h' : FaultAfter before text other) :
    fault = other := by
  have hstray : closes text = true →
      ∀ fault, wholeStatement (stripComment text) ≠ .error fault := by
    intro hcloses fault hread
    rw [closes, stated?_of_unreadable hread] at hcloses
    cases hcloses
  cases h with
  | unreadable hsome hread =>
      cases h' with
      | unreadable hsome' hread' => exact Except.error.inj (hread.symm.trans hread')
      | strayEnd hcloses => exact absurd hread (hstray hcloses _)
  | strayEnd hcloses =>
      cases h' with
      | unreadable hsome' hread' => exact absurd hread' (hstray hcloses _)
      | strayEnd => rfl

/-- Before the first fault there is no other. -/
theorem length_le_of_clean {front after more : List (List Char)} {line : List Char}
    (hclean : Clean front) (hsplit : before ++ text :: after = front ++ line :: more)
    (hfault : FaultAfter before text fault) : front.length ≤ before.length := by
  rcases List.append_eq_append_iff.mp hsplit with ⟨between, rfl, hrest⟩ | ⟨between, rfl, -⟩
  · cases between with
    | nil => simp
    | cons first others =>
        obtain ⟨rfl, -⟩ := List.cons.inj hrest
        exact absurd hfault (hclean _ _ _ _ rfl)
  · simp

/-- There is one first fault at most. -/
theorem FirstFault.unique (h : FirstFault texts e) (h' : FirstFault texts e') : e = e' := by
  cases h with
  | @onLine before after text fault hsplit hclean hfault =>
      cases h' with
      | @onLine front more line other hsplit' hclean' hfault' =>
          have hlines := hsplit.symm.trans hsplit'
          have hlength : before.length = front.length :=
            Nat.le_antisymm (length_le_of_clean hclean hlines.symm hfault')
              (length_le_of_clean hclean' hlines hfault)
          obtain ⟨rfl, hrest⟩ := List.append_inj hlines hlength
          obtain ⟨rfl, -⟩ := List.cons.inj hrest
          rw [hfault.unique hfault']
      | missingEnd hclean' => exact absurd hfault (hclean' _ _ _ _ hsplit)
  | missingEnd hclean =>
      cases h' with
      | onLine hsplit' _ hfault' => exact absurd hfault' (hclean _ _ _ _ hsplit')
      | missingEnd => rfl

/-! ### The reader -/

/-- What the reader counts goes on to be what was opened less what was closed. -/
theorem depthAfter_counts {statement : Statement} {depth next : Nat}
    (hsaid : stated? text = some statement) (hnext : depthAfter depth statement = some next)
    (hdepth : depth + before.countP closes = before.countP opens) :
    next + (before ++ [text]).countP closes = (before ++ [text]).countP opens := by
  rw [List.countP_append, List.countP_append, List.countP_singleton, List.countP_singleton, opens,
    closes, hsaid, Option.any_some, Option.any_some]
  cases statement with
  | close =>
      simp only [depthAfter, Option.ite_none_left_eq_some, Option.some.injEq] at hnext
      simp only [opensBody, closesBody, if_true, Bool.false_eq_true, if_false]
      omega
  | openClass | openModule =>
      cases hnext
      simp only [opensBody, closesBody, if_true, Bool.false_eq_true, if_false]
      omega
  | _ =>
      cases hnext
      exact hdepth

/-- A statement has no place only if it is an `end` and no body is open. -/
theorem faultAfter_of_depthAfter {statement : Statement} {depth : Nat}
    (hsaid : stated? text = some statement)
    (hdepth : depth + before.countP closes = before.countP opens)
    (hnext : depthAfter depth statement = none) : FaultAfter before text .strayEnd := by
  cases statement with
  | close =>
      have hnothing : depth = 0 := by simpa [depthAfter] using hnext
      exact .strayEnd (by rw [closes, hsaid]; rfl) (by omega)
  | _ => cases hnext

/-- A statement that has a place is no fault. -/
theorem not_faultAfter_of_depthAfter {statement : Statement} {depth next : Nat}
    (hread : wholeStatement (stripComment text) = .ok statement) (hsaid : stated? text = some statement)
    (hdepth : depth + before.countP closes = before.countP opens)
    (hnext : depthAfter depth statement = some next) : ¬FaultAfter before text fault := by
  intro hfault
  cases hfault with
  | unreadable _ hunread => cases hread.symm.trans hunread
  | strayEnd hcloses hnone =>
      rw [closes, hsaid, Option.any_some] at hcloses
      cases statement with
      | close =>
          have hnothing : depth = 0 := by omega
          rw [hnothing] at hnext
          cases hnext
      | _ => cases hcloses

/-- A blank line is no fault. -/
theorem not_faultAfter_of_blank (hblank : atEnd (stripComment text) = true) :
    ¬FaultAfter before text fault := by
  intro hfault
  cases hfault with
  | unreadable hsome => cases hblank.symm.trans hsome
  | strayEnd hcloses =>
      rw [closes, stated?_of_blank hblank] at hcloses
      cases hcloses

/-- A blank line neither opens nor closes a body. -/
theorem counts_of_blank {depth : Nat} (hblank : atEnd (stripComment text) = true)
    (hdepth : depth + before.countP closes = before.countP opens) :
    depth + (before ++ [text]).countP closes = (before ++ [text]).countP opens := by
  rw [List.countP_append, List.countP_append, List.countP_singleton, List.countP_singleton, opens,
    closes, stated?_of_blank hblank]
  exact hdepth

/-- The reader stops at a line that has a fault, and goes on from one that has none. -/
theorem parseLines_cons_cases (line depth : Nat) (text : List Char) (rest : List (List Char))
    (hdepth : depth + before.countP closes = before.countP opens) :
    (∃ fault, FaultAfter before text fault ∧
      parseLines line depth (text :: rest) = .error ⟨line + 1, fault⟩) ∨
    ∃ next add, (∀ fault, ¬FaultAfter before text fault) ∧
      next + (before ++ [text]).countP closes = (before ++ [text]).countP opens ∧
      parseLines line depth (text :: rest) = (parseLines (line + 1) next rest).map add := by
  simp only [parseLines]
  by_cases hblank : atEnd (stripComment text) = true
  · refine .inr ⟨depth, id, fun _ => not_faultAfter_of_blank hblank, counts_of_blank hblank hdepth, ?_⟩
    rw [if_pos hblank, Except.map_id, id]
  rw [if_neg hblank]
  cases hread : wholeStatement (stripComment text) with
  | error fault => exact .inl ⟨fault, .unreadable (Bool.eq_false_iff.mpr hblank) hread, rfl⟩
  | ok statement =>
      have hsaid := stated?_of_read hblank hread
      dsimp only
      cases hnext : depthAfter depth statement with
      | none => exact .inl ⟨.strayEnd, faultAfter_of_depthAfter hsaid hdepth hnext, rfl⟩
      | some next =>
          refine .inr ⟨next, ((line + 1, statement) :: ·),
            fun _ => not_faultAfter_of_depthAfter hread hsaid hdepth hnext,
            depthAfter_counts hsaid hnext hdepth, ?_⟩
          dsimp only
          cases parseLines (line + 1) next rest <;> rfl

/-- From lines without faults the reader goes on to the first fault of all lines.  If there is none, it
reads them all, and as many bodies are closed as are opened. -/
theorem parseLines_cases (rest before : List (List Char)) (depth : Nat) (hclean : Clean before)
    (hdepth : depth + before.countP closes = before.countP opens) :
    (∃ e, parseLines before.length depth rest = .error e ∧ FirstFault (before ++ rest) e) ∨
    ((∃ statements, parseLines before.length depth rest = .ok statements) ∧ Clean (before ++ rest) ∧
      (before ++ rest).countP closes = (before ++ rest).countP opens) := by
  induction rest generalizing before depth with
  | nil =>
      rw [List.append_nil, parseLines]
      by_cases hnothing : depth = 0
      · exact .inr ⟨⟨[], if_pos hnothing⟩, hclean, by omega⟩
      · exact .inl ⟨_, if_neg hnothing, .missingEnd hclean (by omega)⟩
  | cons text rest ih =>
      obtain ⟨fault, hfault, hread⟩ | ⟨next, add, hnone, hnext, hread⟩ :=
        parseLines_cons_cases before.length depth text rest hdepth
      · exact .inl ⟨_, hread, .onLine rfl hclean hfault⟩
      -- The line is taken over to those that have been read.
      have hlines : before ++ text :: rest = (before ++ [text]) ++ rest := by simp
      have hrest := ih (before ++ [text]) next (hclean.concat hnone) hnext
      rw [← hlines, List.length_append, List.length_singleton] at hrest
      obtain ⟨e, hparse, hfirst⟩ | ⟨⟨statements, hparse⟩, hall⟩ := hrest
      · exact .inl ⟨e, by rw [hread, hparse]; rfl, hfirst⟩
      · exact .inr ⟨⟨add statements, by rw [hread, hparse]; rfl⟩, hall⟩

/-- Lines of which none has a fault, and which close every body that they open, have no first fault. -/
theorem not_firstFault_of_clean (hclean : Clean texts)
    (hclosed : texts.countP closes = texts.countP opens) : ¬FirstFault texts e := by
  intro hfirst
  cases hfirst with
  | onLine hsplit _ hfault => exact hclean _ _ _ _ hsplit hfault
  | missingEnd _ hopen => omega

/-- A text is refused for its first fault, and only if there is one. -/
theorem parse_eq_error_iff (source : List Char) (e : SyntaxError) :
    parse source = .error e ↔ FirstFault (Text.lines source) e := by
  obtain ⟨found, hparse, hfirst⟩ | ⟨⟨statements, hparse⟩, hclean, hclosed⟩ :=
    parseLines_cases (Text.lines source) [] 0 clean_nil rfl
  · rw [parse]
    refine ⟨fun hsame => ?_, fun hother => ?_⟩
    · cases hparse.symm.trans hsame
      exact hfirst
    · rw [hother.unique hfirst]
      exact hparse
  · exact iff_of_false (fun hsame => nomatch hparse.symm.trans hsame)
      (not_firstFault_of_clean hclean hclosed)

end EmbeddedRuby.Source
