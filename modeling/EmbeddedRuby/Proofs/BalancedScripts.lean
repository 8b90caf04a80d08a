import Mathlib.Data.List.Forall2
import Mathlib.Data.List.Induction
import EmbeddedRuby.Proofs.Accounts.Tasks

/-!
# The statements of a script

A text that is read has one statement for each of its lines that is not blank beside its comment, with
the number of that line (`Source.statements_parse`).  The bodies in it are **balanced**
(`Source.Balanced`): the statements are a sequence of statements that neither open nor close a body and
of whole bodies, from the one that opens it to its `end`, with balanced statements in between.

The reader does not look for the `end` of a body; it counts how many bodies are open (`Source.Nests`).
But wherever it has counted to, there are as many openings that have not been matched, each followed by
balanced statements (`Source.exists_unfinished`), and an `end` matches the last of them.
-/

namespace EmbeddedRuby.Source

/-! ### A statement for each line -/

/-- The lines that are not blank beside their comments, each with its number; the first line has number
`first`. -/
def writtenLines (first : Nat) (texts : List (List Char)) : List (List Char × Nat) :=
  (texts.zipIdx first).filter fun line => !atEnd (stripComment line.1)

/-- The line says this statement, and nothing beside it but a comment. -/
def Says (line : List Char × Nat) (entry : Nat × Statement) : Prop :=
  entry.1 = line.2 ∧ wholeStatement (stripComment line.1) = .ok entry.2

variable {texts : List (List Char)} {line depth : Nat}
  {statements before inner rest : List (Nat × Statement)} {entry opening closing : Nat × Statement}

/-- What the reader does with a line from which it goes on. -/
theorem parseLines_cons_ok {text : List Char}
    (hparse : parseLines line depth (text :: texts) = .ok statements) :
    (atEnd (stripComment text) = true ∧ parseLines (line + 1) depth texts = .ok statements) ∨
    ∃ statement next later, atEnd (stripComment text) = false ∧
      wholeStatement (stripComment text) = .ok statement ∧
      depthAfter depth statement = some next ∧
      parseLines (line + 1) next texts = .ok later ∧ statements = (line + 1, statement) :: later := by
  simp only [parseLines] at hparse
  split at hparse
  · rename_i hblank
    exact .inl ⟨hblank, hparse⟩
  · rename_i hwritten
    split at hparse
    · cases hparse
    · rename_i statement hread
      split at hparse
      · cases hparse
      · rename_i next hnext
        split at hparse
        · cases hparse
        · rename_i later hlater
          cases hparse
          exact .inr ⟨statement, next, later, Bool.eq_false_iff.mpr hwritten, hread, hnext, hlater, rfl⟩

/-- Each line that is not blank says one statement, and there are no others. -/
theorem statements_parseLines (hparse : parseLines line depth texts = .ok statements) :
    List.Forall₂ Says (writtenLines (line + 1) texts) statements := by
  induction texts generalizing line depth statements with
  | nil =>
      simp only [parseLines] at hparse
      split at hparse
      · cases hparse
        exact .nil
      · cases hparse
  | cons text texts ih =>
      rcases parseLines_cons_ok hparse with
        ⟨hblank, hlater⟩ | ⟨statement, next, later, hwritten, hread, -, hlater, rfl⟩
      · have hskipped : writtenLines (line + 1) (text :: texts) = writtenLines (line + 2) texts := by
          simp [writtenLines, List.zipIdx_cons, hblank]
        rw [hskipped]
        exact ih hlater
      · have hnoted : writtenLines (line + 1) (text :: texts) =
            (text, line + 1) :: writtenLines (line + 2) texts := by
          simp [writtenLines, List.zipIdx_cons, hwritten]
        rw [hnoted]
        exact .cons ⟨rfl, hread⟩ (ih hlater)

theorem statements_parse {source : List Char} (hparse : parse source = .ok statements) :
    List.Forall₂ Says (writtenLines 1 (Text.lines source)) statements :=
  statements_parseLines hparse

theorem numbers_of_lines {lines : List (List Char × Nat)} (hsaid : List.Forall₂ Says lines statements) :
    statements.map Prod.fst = lines.map Prod.snd := by
  induction hsaid with
  | nil => rfl
  | cons hsaid _ ih => exact congrArg₂ List.cons hsaid.1 ih

/-- The numbers of the lines go up. -/
theorem pairwise_numbers {first : Nat} (hsaid : List.Forall₂ Says (writtenLines first texts) statements) :
    statements.Pairwise fun earlier later => earlier.1 < later.1 := by
  have hall : (texts.zipIdx first).Pairwise fun earlier later => earlier.2 < later.2 := by
    rw [← List.pairwise_map, List.zipIdx_map_snd]
    exact List.pairwise_lt_range'
  rw [← List.pairwise_map (f := Prod.fst), numbers_of_lines hsaid, List.pairwise_map]
  exact hall.sublist List.filter_sublist

/-! ### Balanced statements -/

/-- Each body that is opened is closed again, and no other. -/
inductive Balanced : List (Nat × Statement) → Prop
  | nil : Balanced []
  | keeps {entry : Nat × Statement} {rest : List (Nat × Statement)}
      (hkeeps : entry.2.bodyChange = .keeps) (hrest : Balanced rest) : Balanced (entry :: rest)
  /-- A body, from the statement that opens it to its `end`. -/
  | body {label : String} {opening closing : Nat × Statement} {inner rest : List (Nat × Statement)}
      (hopens : opening.2.bodyChange = .opens label) (hinner : Balanced inner)
      (hcloses : closing.2 = .close) (hrest : Balanced rest) :
      Balanced (opening :: inner ++ closing :: rest)

theorem Balanced.append (hinner : Balanced inner) (hrest : Balanced rest) :
    Balanced (inner ++ rest) := by
  induction hinner with
  | nil => exact hrest
  | keeps hkeeps _ ih => exact .keeps hkeeps ih
  | body hopens hbody hcloses _ _ ih =>
      rw [List.append_assoc, List.cons_append]
      exact .body hopens hbody hcloses ih

/-- These statements, the innermost first, open bodies that are not closed in the statements; between
them and after them all is balanced. -/
inductive Unfinished : List (Nat × Statement) → List (Nat × Statement) → Prop
  | top {inner : List (Nat × Statement)} (hinner : Balanced inner) : Unfinished [] inner
  | body {label : String} {opening : Nat × Statement} {openings before inner : List (Nat × Statement)}
      (houter : Unfinished openings before) (hopens : opening.2.bodyChange = .opens label)
      (hinner : Balanced inner) : Unfinished (opening :: openings) (before ++ opening :: inner)

variable {openings : List (Nat × Statement)}

theorem Unfinished.append (hbefore : Unfinished openings before) (hrest : Balanced rest) :
    Unfinished openings (before ++ rest) := by
  cases hbefore with
  | top hinner => exact .top (hinner.append hrest)
  | body houter hopens hinner =>
      rw [List.append_assoc, List.cons_append]
      exact .body houter hopens (hinner.append hrest)

/-! ### The reader counts -/

/-- With so many bodies open before them the statements close each body that they open, and no others
than those that are open. -/
def Nests : Nat → List (Nat × Statement) → Prop
  | depth, [] => depth = 0
  | depth, entry :: rest => ∃ next, depthAfter depth entry.2 = some next ∧ Nests next rest

theorem nests_parseLines (hparse : parseLines line depth texts = .ok statements) :
    Nests depth statements := by
  induction texts generalizing line depth statements with
  | nil =>
      simp only [parseLines] at hparse
      split at hparse
      · cases hparse
        assumption
      · cases hparse
  | cons text texts ih =>
      rcases parseLines_cons_ok hparse with
        ⟨-, hlater⟩ | ⟨statement, next, later, -, -, hnext, hlater, rfl⟩
      · exact ih hlater
      · exact ⟨next, hnext, ih hlater⟩

/-- The bodies of a script that is read are nested as they should be. -/
theorem nests_parse {source : List Char} (hparse : parse source = .ok statements) :
    Nests 0 statements :=
  nests_parseLines hparse

/-- What the reader counts is what the statement does to the open bodies. -/
theorem depthAfter_eq (depth : Nat) (statement : Statement) :
    depthAfter depth statement =
      match statement.bodyChange with
      | .opens _ => some (depth + 1)
      | .closes => if depth = 0 then none else some (depth - 1)
      | .keeps => some depth := by
  cases statement <;> rfl

/-- Only an `end` closes a body. -/
theorem bodyChange_eq_closes_iff {statement : Statement} :
    statement.bodyChange = .closes ↔ statement = .close := by
  cases statement <;> simp [Statement.bodyChange]

/-- **Where the reader has counted to, as many openings have not been matched.**  The next statement
opens one more body, or it is balanced by itself, or it matches the last opening, and what stands between
is then a whole body. -/
theorem exists_unfinished (hnests : Nests 0 (before ++ rest)) :
    ∃ openings, Unfinished openings before ∧ Nests openings.length rest := by
  induction before using List.reverseRecOn generalizing rest with
  | nil => exact ⟨[], .top .nil, hnests⟩
  | append_singleton before entry ih =>
      rw [List.append_assoc] at hnests
      obtain ⟨openings, hbefore, next, hnext, hrest⟩ := ih hnests
      rw [depthAfter_eq] at hnext
      cases hchange : entry.2.bodyChange with
      | opens label =>
          rw [hchange] at hnext
          cases hnext
          exact ⟨entry :: openings, .body hbefore hchange .nil, hrest⟩
      | keeps =>
          rw [hchange] at hnext
          cases hnext
          exact ⟨openings, hbefore.append (.keeps hchange .nil), hrest⟩
      | closes =>
          rw [hchange] at hnext
          cases hbefore with
          | top => cases hnext
          | @body label opening outer front inner houter hopens hinner =>
              cases hnext
              have hbody : Balanced (opening :: inner ++ entry :: []) :=
                .body hopens hinner (bodyChange_eq_closes_iff.mp hchange) .nil
              refine ⟨outer, ?_, hrest⟩
              rw [List.append_assoc]
              exact houter.append hbody

/-- Statements that close what they open, and nothing else, are balanced. -/
theorem Nests.balanced (hnests : Nests 0 statements) : Balanced statements := by
  rw [← List.append_nil statements] at hnests
  obtain ⟨openings, hunfinished, hnone⟩ := exists_unfinished hnests
  cases hunfinished with
  | top hbalanced => exact hbalanced
  | body => cases hnone

/-- Each `end` among them has an opening that it matches. -/
theorem Nests.exists_matching (hnests : Nests 0 (before ++ closing :: rest))
    (hcloses : closing.2 = .close) :
    ∃ front opening label inner, before = front ++ opening :: inner ∧
      opening.2.bodyChange = .opens label ∧ Balanced inner := by
  obtain ⟨openings, hunfinished, next, hnext, -⟩ := exists_unfinished hnests
  cases hunfinished with
  | top =>
      rw [hcloses] at hnext
      cases hnext
  | body houter hopens hinner => exact ⟨_, _, _, _, rfl, hopens, hinner⟩

end EmbeddedRuby.Source
