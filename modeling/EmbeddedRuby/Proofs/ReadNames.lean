import Mathlib.Data.List.TakeWhile
import EmbeddedRuby.Proofs.Tokens

/-!
# The names that scripts are read with

A script names what it opens and what it assigns to with identifiers: words, behind which one `?` or
`!` may stand (`IsIdentifier`).  Each form of a statement takes its name by way of another reader, but
every name has come through `identifier?` (`Source.namesRead_parse`).
-/

namespace EmbeddedRuby

open Text

/-! ### Identifiers -/

/-- The name ends in one of the marks that may end an identifier. -/
def Marked (name : List Char) : Prop :=
  name.getLast? = some '?' ∨ name.getLast? = some '!'

instance (name : List Char) : Decidable (Marked name) :=
  inferInstanceAs (Decidable (_ ∨ _))

/-- The name is made of characters of words, at least one, and of a mark behind them perhaps. -/
def IsIdentifier (name : List Char) : Prop :=
  ∃ body mark, name = body ++ mark ∧ body ≠ [] ∧ (∀ c ∈ body, isWordChar c = true) ∧
    mark ∈ [[], ['?'], ['!']]

namespace IsIdentifier

variable {name : List Char}

/-- An identifier is not empty. -/
theorem ne_nil (h : IsIdentifier name) : name ≠ [] := by
  obtain ⟨body, mark, rfl, hbody, -, -⟩ := h
  simp [hbody]

/-- A character that is neither a mark nor goes on with a word is not in an identifier. -/
theorem not_mem (h : IsIdentifier name) {c : Char} (hc : isWordChar c = false)
    (hmark : c ∉ ['?', '!']) : c ∉ name := by
  obtain ⟨body, mark, rfl, -, hword, hend⟩ := h
  intro hmem
  rcases List.mem_append.mp hmem with hbody | htail
  · rw [hword c hbody] at hc
    cases hc
  · simp only [List.mem_cons, List.not_mem_nil, or_false] at hend
    rcases hend with rfl | rfl | rfl
    · cases htail
    · exact hmark (by simp [List.mem_singleton.mp htail])
    · exact hmark (by simp [List.mem_singleton.mp htail])

/-- An identifier is a word unless a mark ends it. -/
theorem all_isWordChar_iff (h : IsIdentifier name) :
    name.all isWordChar = true ↔ ¬Marked name := by
  obtain ⟨body, mark, rfl, hbody, hword, hend⟩ := h
  simp only [List.mem_cons, List.not_mem_nil, or_false] at hend
  rcases hend with rfl | rfl | rfl
  · have hunmarked : ¬Marked body := by
      rintro (hlast | hlast)
      · exact absurd (hword _ (List.mem_of_getLast? hlast)) (by decide)
      · exact absurd (hword _ (List.mem_of_getLast? hlast)) (by decide)
    simpa [hunmarked] using hword
  · simp [Marked, show isWordChar '?' = false by decide]
  · simp [Marked, show isWordChar '!' = false by decide]

end IsIdentifier

namespace Source

variable {text rest name : List Char}

/-- What is read as an identifier is one. -/
theorem isIdentifier_of_identifier? (h : identifier? text = some (name, rest)) :
    IsIdentifier name := by
  unfold identifier? at h
  generalize trimStart text = text at h
  dsimp only at h
  split at h
  · rename_i hstart
    have hword : ∀ c ∈ text.takeWhile isWordChar, isWordChar c = true := fun c hc =>
      List.mem_takeWhile_imp hc
    have hsome : text.takeWhile isWordChar ≠ [] := by
      cases text with
      | nil => simp at hstart
      | cons c text =>
          have hc : isWordChar c = true := isWordChar_of_isNameStart (by simpa using hstart)
          simp [hc]
    split at h
    · split at h
      · rename_i hmark
        cases h
        refine ⟨_, [_], rfl, hsome, hword, ?_⟩
        rcases hmark with rfl | rfl <;> simp
      · cases h
        exact ⟨_, [], (List.append_nil _).symm, hsome, hword, by simp⟩
    · cases h
      exact ⟨_, [], (List.append_nil _).symm, hsome, hword, by simp⟩
  · cases h

/-- The name of a constant is an identifier that starts with a capital. -/
theorem isIdentifier_of_constantName (h : constantName text = .ok (name, rest)) :
    IsIdentifier name ∧ name.head?.any isCapital = true := by
  unfold constantName at h
  split at h
  · rename_i hfound
    split at h
    · rename_i hcapital
      cases h
      exact ⟨isIdentifier_of_identifier? hfound, hcapital⟩
    · cases h
  · cases h

end Source

namespace Statement

/-- What the statement opens or assigns to has a name as scripts write it. -/
def NamesRead : Statement → Prop
  | .openClass name _ | .openModule name | .setConstant name _ =>
    IsIdentifier name ∧ name.head?.any isCapital = true
  | .setClassVar name _ => ∃ body, name = '@' :: '@' :: body ∧ IsIdentifier body
  | .close | .raise _ _ | .puts _ | .p _ => True

end Statement

namespace Source

variable {text rest : List Char} {read : Statement}

/-- The name of a class variable has come through `identifier?`. -/
theorem namesRead_classVarRest (h : classVarRest text = .ok (read, rest)) : read.NamesRead := by
  unfold classVarRest at h
  split at h
  · cases h
  rename_i hname
  split at h
  · cases h
  · cases h
    exact ⟨_, rfl, isIdentifier_of_identifier? hname⟩

/-- The name of a constant that is assigned has come through `identifier?`. -/
theorem namesRead_constantAssignment (h : constantAssignment text = .ok (read, rest)) :
    read.NamesRead := by
  unfold constantAssignment at h
  split at h
  · cases h
  rename_i hname
  split at h
  · cases h
  · cases h
    exact isIdentifier_of_constantName hname

/-- The name of a class has come through `identifier?`. -/
theorem namesRead_classHead (h : classHead text = .ok (read, rest)) : read.NamesRead := by
  unfold classHead at h
  split at h
  · cases h
  rename_i hname
  split at h
  · cases h
    exact isIdentifier_of_constantName hname
  split at h
  · cases h
  · cases h
    exact isIdentifier_of_constantName hname

/-- A `raise` opens and assigns to nothing. -/
theorem namesRead_raiseRest (h : raiseRest text = .ok (read, rest)) : read.NamesRead := by
  unfold raiseRest at h
  split at h
  · cases h
    trivial
  split at h
  · split at h
    · cases h
    split at h
    · cases h
      trivial
    split at h
    · cases h
    · cases h
      trivial
  · split at h
    · cases h
    · cases h
      trivial

/-- Each form of a statement takes its name as an identifier. -/
theorem namesRead_statement (h : statement text = .ok (read, rest)) : read.NamesRead := by
  unfold statement at h
  split at h
  · cases h
    trivial
  split at h
  · exact namesRead_classHead h
  split at h
  · obtain ⟨result, hname, hgiven⟩ := exists_of_map_eq_ok h
    cases hgiven
    exact isIdentifier_of_constantName hname
  split at h
  · exact namesRead_raiseRest h
  split at h
  · obtain ⟨result, -, hgiven⟩ := exists_of_map_eq_ok h
    cases hgiven
    trivial
  split at h
  · obtain ⟨result, -, hgiven⟩ := exists_of_map_eq_ok h
    cases hgiven
    trivial
  · unfold assignment at h
    split at h
    · exact namesRead_classVarRest h
    · split at h
      · exact namesRead_constantAssignment h
      · cases h

/-- The name in a whole statement has come through `identifier?`. -/
theorem namesRead_wholeStatement (h : wholeStatement text = .ok read) : read.NamesRead := by
  unfold wholeStatement at h
  split at h
  · cases h
  rename_i hread
  split at h
  · cases h
    exact namesRead_statement hread
  · cases h

/-- The names in a script have come through `identifier?`, by induction over its lines. -/
theorem namesRead_parseLines {number depth : Nat} {texts : List (List Char)}
    {statements : List (Nat × Statement)} (h : parseLines number depth texts = .ok statements) :
    ∀ entry ∈ statements, entry.2.NamesRead := by
  induction texts generalizing number depth statements with
  | nil =>
      unfold parseLines at h
      split at h
      · cases h
        exact List.forall_mem_nil _
      · cases h
  | cons text below ih =>
      unfold parseLines at h
      dsimp only at h
      split at h
      · exact ih h
      split at h
      · cases h
      rename_i hwhole
      split at h
      · cases h
      split at h
      · cases h
      rename_i hbelow
      cases h
      exact List.forall_mem_cons.mpr ⟨namesRead_wholeStatement hwhole, ih hbelow⟩

/-- **Whatever a script opens or assigns to is named so.** -/
theorem namesRead_parse {source : List Char} {statements : List (Nat × Statement)}
    (h : parse source = .ok statements) : ∀ entry ∈ statements, entry.2.NamesRead :=
  namesRead_parseLines h

end Source

end EmbeddedRuby
