import EmbeddedRuby.Object.Value

/-!
# How a host block ends

A block written by the host says what should happen next: its value, the end of the iteration with
or without a value, or an exception.  `RawReturn` is the form in which this crosses the border: a
tag and a word.  A tag that means nothing is found out when the raw form is read.

Main statement: reading what was written gives the same outcome (`ofRaw_toRaw`).
-/

namespace EmbeddedRuby

/-- What a host block wants to happen next. -/
inductive BlockReturn where
  | value (v : Value)
  /-- End the iteration; its result is nil. -/
  | breakOff
  /-- End the iteration; its result is `v`. -/
  | breakValue (v : Value)
  | raise (exception : Value)
deriving DecidableEq, Repr

/-- The raw form of what a block wants. -/
structure RawReturn where
  tag : Nat
  value : Value
deriving DecidableEq, Repr

namespace BlockReturn

def toRaw : BlockReturn → RawReturn
  | value v => ⟨0, v⟩
  | breakOff => ⟨1, Value.ofWord 0⟩
  | breakValue v => ⟨2, v⟩
  | raise exception => ⟨3, exception⟩

/-- Read the raw form, or give the tag that means nothing. -/
def ofRaw (raw : RawReturn) : Except Nat BlockReturn :=
  match raw.tag with
  | 0 => .ok (value raw.value)
  | 1 => .ok breakOff
  | 2 => .ok (breakValue raw.value)
  | 3 => .ok (raise raw.value)
  | tag => .error tag

theorem ofRaw_toRaw (outcome : BlockReturn) : ofRaw outcome.toRaw = .ok outcome := by
  cases outcome <;> rfl

end BlockReturn

end EmbeddedRuby
