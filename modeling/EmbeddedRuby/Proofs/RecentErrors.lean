import EmbeddedRuby.Host.Error
import Mathlib.Data.List.DropRight

/-!
# Which errors a history keeps

A history is told of errors, and is cleared from time to time (`History.Step`).  What it should remember
can be read off these steps alone: the errors that were recorded after the last clearing
(`History.sinceClear`), and of these the last ones, as many as it has room for (`History.KeepsLast`).

A history makes room by a test for equality, and so it depends on never having passed its capacity.
`KeepsLast.apply` is the step, and `after_keepsLast` the whole run.  The main statement is
`History.after_answers`, on all that can be asked of a history.
-/

namespace EmbeddedRuby

namespace History

/-- What is done to a history. -/
inductive Step where
  | record (error : Error)
  | clear

/-- The error that a step brings. -/
def Step.error? : Step → Option Error
  | record error => some error
  | clear => none

/-- The history after a step. -/
def apply (h : History) : Step → History
  | .record error => h.record error
  | .clear => h.clear

/-- The history after all of the steps, one after the other. -/
def after (h : History) (steps : List Step) : History :=
  steps.foldl apply h

/-- The errors that were recorded after the last clearing, oldest first. -/
def sinceClear (steps : List Step) : List Error :=
  (steps.rtakeWhile fun step => step.error?.isSome).filterMap Step.error?

/-- The history holds the last of the errors, as many as there is room for. -/
structure KeepsLast (h : History) (recorded : List Error) : Prop where
  suffix : h.errors <:+ recorded
  length : h.errors.length = min recorded.length h.capacity

variable {h : History} {recorded : List Error}

/-- An error that is recorded comes after the others. -/
@[simp]
theorem sinceClear_record (steps : List Step) (error : Error) :
    sinceClear (steps ++ [.record error]) = sinceClear steps ++ [error] := by
  simp [sinceClear, Step.error?]

/-- After a clearing there are none. -/
@[simp]
theorem sinceClear_clear (steps : List Step) : sinceClear (steps ++ [.clear]) = [] := by
  simp [sinceClear, Step.error?]

/-- The last of the steps is done last. -/
@[simp]
theorem after_concat (h : History) (steps : List Step) (step : Step) :
    h.after (steps ++ [step]) = (h.after steps).apply step := by
  simp [after]

/-- No step changes how much room there is. -/
@[simp]
theorem apply_capacity (h : History) (step : Step) : (h.apply step).capacity = h.capacity := by
  cases step with
  | record error =>
      simp only [apply, record]
      split <;> rfl
  | clear => rfl

/-- No number of steps changes how much room there is. -/
theorem after_capacity (h : History) (steps : List Step) :
    (h.after steps).capacity = h.capacity := by
  induction steps using List.reverseRecOn with
  | nil => rfl
  | append_singleton steps step ih => rw [after_concat, apply_capacity, ih]

/-- Room for one error is enough for a history to remember the last one. -/
theorem KeepsLast.record (hkeeps : h.KeepsLast recorded) (hroom : 0 < h.capacity) (error : Error) :
    (h.record error).KeepsLast (recorded ++ [error]) := by
  obtain ⟨⟨before, hbefore⟩, hlength⟩ := hkeeps
  unfold History.record
  split
  · next hfull =>
    have hsuffix : h.errors.drop 1 <:+ recorded :=
      (List.drop_suffix 1 h.errors).trans ⟨before, hbefore⟩
    obtain ⟨dropped, hdropped⟩ := hsuffix
    refine ⟨⟨dropped, ?_⟩, ?_⟩
    · rw [← List.append_assoc, hdropped]
    · simp only [List.length_append, List.length_drop, List.length_singleton]
      omega
  · next hspace =>
    refine ⟨⟨before, ?_⟩, ?_⟩
    · rw [← List.append_assoc, hbefore]
    · simp only [List.length_append, List.length_singleton]
      omega

/-- An empty history keeps the last of no errors. -/
theorem keepsLast_nil (herrors : h.errors = []) : h.KeepsLast [] :=
  ⟨herrors ▸ List.suffix_rfl, by simp [herrors]⟩

/-- What a history keeps once some steps were taken, and one more. -/
theorem KeepsLast.apply {steps : List Step} (hkeeps : h.KeepsLast (sinceClear steps))
    (hroom : 0 < h.capacity) (step : Step) :
    (h.apply step).KeepsLast (sinceClear (steps ++ [step])) := by
  cases step with
  | record error =>
      rw [sinceClear_record]
      exact hkeeps.record hroom error
  | clear =>
      rw [sinceClear_clear]
      exact keepsLast_nil rfl

/-- The last errors since the latest clearing are kept over any number of steps. -/
theorem after_keepsLast (herrors : h.errors = []) (hroom : 0 < h.capacity) (steps : List Step) :
    (h.after steps).KeepsLast (sinceClear steps) := by
  induction steps using List.reverseRecOn with
  | nil => exact keepsLast_nil herrors
  | append_singleton steps step ih =>
      rw [after_concat]
      refine ih.apply ?_ step
      rwa [after_capacity]

/-- A history that keeps any errors at all knows the last one. -/
theorem KeepsLast.errors_eq_nil_iff (hkeeps : h.KeepsLast recorded) (hroom : 0 < h.capacity) :
    h.errors = [] ↔ recorded = [] := by
  rw [← List.length_eq_zero_iff, ← List.length_eq_zero_iff, hkeeps.length]
  omega

/-- The most recent error is the last one that was recorded. -/
theorem KeepsLast.mostRecent? (hkeeps : h.KeepsLast recorded) (hroom : 0 < h.capacity) :
    h.mostRecent? = recorded.getLast? := by
  by_cases hnone : h.errors = []
  · rw [(hkeeps.errors_eq_nil_iff hroom).mp hnone, History.mostRecent?, hnone]
  · obtain ⟨before, rfl⟩ := hkeeps.suffix
    exact (List.getLast?_append_of_ne_nil before hnone).symm

/-- Whatever was recorded and however often the history was cleared: it holds the last errors since
then, oldest first, up to its capacity, which is one at least; the most recent one is the last that was
recorded since, and it is empty exactly if none was. -/
theorem after_answers (capacity : Nat) (steps : List Step) :
    let h := (ofCapacity capacity).after steps
    (h.errors <:+ sinceClear steps ∧
      h.errors.length = min (sinceClear steps).length (max capacity 1)) ∧
    h.length ≤ max capacity 1 ∧
    h.mostRecent? = (sinceClear steps).getLast? ∧
    (h.isEmpty ↔ sinceClear steps = []) := by
  intro h
  have hcapacity : h.capacity = max capacity 1 := after_capacity (ofCapacity capacity) steps
  have hroom : 0 < (ofCapacity capacity).capacity := Nat.le_max_right capacity 1
  have hkeeps : h.KeepsLast (sinceClear steps) := after_keepsLast rfl hroom steps
  have hlength : h.errors.length = min (sinceClear steps).length (max capacity 1) :=
    hcapacity ▸ hkeeps.length
  rw [← after_capacity _ steps] at hroom
  refine ⟨⟨hkeeps.suffix, hlength⟩, ?_, hkeeps.mostRecent? hroom, ?_⟩
  · exact hlength.trans_le (Nat.min_le_right _ _)
  · rw [isEmpty, List.isEmpty_iff]
    exact hkeeps.errors_eq_nil_iff hroom

/-- A history without room makes room for one error. -/
example (first second : Error) :
    ((ofCapacity 0).after [.record first, .clear, .record first, .record second]).errors = [second] :=
  rfl

end History

end EmbeddedRuby
