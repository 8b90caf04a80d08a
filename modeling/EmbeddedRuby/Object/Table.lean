/-!
# Tables

A finite map as a list of keys and values, for the constants and class variables of a module, the
methods of the classes and the names that a host has looked up.  The newest entry stands first, and
a key stands in a table once.

Main statements: a table answers what was put in last (`get?_insert_self`), and putting in one key
leaves the others alone (`get?_insert_of_ne`).
-/

namespace EmbeddedRuby

/-- A finite map. -/
structure Table (κ α : Type) where
  entries : List (κ × α) := []

namespace Table

variable {κ α : Type} [DecidableEq κ]

/-- The value under a key. -/
def get? (t : Table κ α) (key : κ) : Option α :=
  (t.entries.find? fun entry => entry.1 == key).map Prod.snd

/-- The table with `value` under `key`, whatever was there before. -/
def insert (t : Table κ α) (key : κ) (value : α) : Table κ α :=
  ⟨(key, value) :: t.entries.filter fun entry => entry.1 != key⟩

@[simp] theorem get?_insert_self (t : Table κ α) (key : κ) (value : α) :
    (t.insert key value).get? key = some value := by
  simp [get?, insert]

theorem get?_insert_of_ne (t : Table κ α) {key other : κ} (value : α) (h : other ≠ key) :
    (t.insert key value).get? other = t.get? other := by
  simp only [get?, insert]
  rw [List.find?_cons_of_neg (by simpa using Ne.symm h)]
  congr 1
  induction t.entries with
  | nil => rfl
  | cons entry rest ih =>
    by_cases hkey : entry.1 = key
    · rw [List.filter_cons_of_neg (by simp [hkey]), ih, List.find?_cons_of_neg]
      simp only [beq_iff_eq]
      intro he
      exact h (he.symm.trans hkey)
    · rw [List.filter_cons_of_pos (by simp [hkey])]
      simp only [List.find?_cons]
      split
      · rfl
      · exact ih

end Table

end EmbeddedRuby
