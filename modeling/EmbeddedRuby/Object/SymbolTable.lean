import EmbeddedRuby.Object.Value

/-!
# Symbols

Names are interned: each name gets a number when it is first met and keeps it.

Main statements: the name of the number a name was given is that name (`name_intern`), and names
that were there before keep their numbers (`find?_intern_of_find?`).
-/

namespace EmbeddedRuby

/-- The names met so far, in the order of their numbers. -/
structure SymbolTable where
  names : Array String := #[]

namespace SymbolTable

/-- The number of a name that was met before. -/
@[irreducible]
def find? (t : SymbolTable) (name : String) : Option SymbolId :=
  (t.names.toList.findIdx? (· == name)).map fun index => ⟨index + 1⟩

/-- The number of a name, a new one if the name is new. -/
def intern (t : SymbolTable) (name : String) : SymbolId × SymbolTable :=
  match t.find? name with
  | some id => (id, t)
  | none => (⟨t.names.size + 1⟩, ⟨t.names.push name⟩)

/-- The name with this number; numbers that were not given out have the empty name. -/
def name (t : SymbolTable) (id : SymbolId) : String :=
  if id.number = 0 then "" else (t.names[id.number - 1]?).getD ""

theorem name_of_find? {t : SymbolTable} {name : String} {id : SymbolId}
    (h : t.find? name = some id) : t.name id = name := by
  simp only [find?, Option.map_eq_some_iff] at h
  obtain ⟨index, hindex, rfl⟩ := h
  rw [List.findIdx?_eq_some_iff_getElem] at hindex
  obtain ⟨hlt, hname, _⟩ := hindex
  simp only [beq_iff_eq, Array.getElem_toList, Array.length_toList] at hname hlt
  simp [SymbolTable.name, hlt, hname]

/-- The number that a name is given leads back to the name. -/
theorem name_intern (t : SymbolTable) (name : String) :
    (t.intern name).2.name (t.intern name).1 = name := by
  unfold intern
  split
  · exact name_of_find? ‹_›
  · simp [SymbolTable.name]

/-- A name that was met before keeps its number. -/
theorem find?_intern_of_find? {t : SymbolTable} {known : String} {id : SymbolId}
    (h : t.find? known = some id) (name : String) : (t.intern name).2.find? known = some id := by
  unfold intern
  split
  · exact h
  · simp only [find?, Option.map_eq_some_iff] at h ⊢
    obtain ⟨index, hindex, rfl⟩ := h
    exact ⟨index, by simp [List.findIdx?_append, hindex], rfl⟩

end SymbolTable

end EmbeddedRuby
