import EmbeddedRuby.Text.CharClass

/-!
# Blanks, lines and tokens

Cutting text into parts: the blanks around it (`trim`), its lines (`lines`) and its first token
(`firstToken?`).  A line ends at a line feed; a carriage return before the line feed belongs to the
line end, one at the very end of the text does not.

`dropFront?` reads a fixed text off the front; it succeeds exactly on what starts with that text
(`dropFront?_eq_some_iff`).  `dropFronts` and `splitOn` read paths such as `::A::B` with it.
-/

namespace EmbeddedRuby.Text

/-- The text without the blanks it starts with. -/
def trimStart (text : List Char) : List Char :=
  text.dropWhile isBlank

/-- The text without the characters of the class `drop` that it ends with. -/
def trimEndWith (drop : Char → Bool) (text : List Char) : List Char :=
  (text.reverse.dropWhile drop).reverse

/-- The text without the blanks at both ends. -/
def trim (text : List Char) : List Char :=
  trimEndWith isBlank (trimStart text)

/-- Drop a final carriage return, which stands before a line feed. -/
def dropReturn (line : List Char) : List Char :=
  if line.getLast? = some '\r' then line.dropLast else line

/-- Everything up to the first line feed, and what follows it if there is one. -/
def splitLine : List Char → List Char × Option (List Char)
  | [] => ([], none)
  | c :: rest =>
    if c = '\n' then ([], some rest)
    else ((c :: (splitLine rest).1), (splitLine rest).2)

theorem splitLine_rest_length {text rest : List Char} (h : (splitLine text).2 = some rest) :
    rest.length < text.length := by
  induction text with
  | nil => simp [splitLine] at h
  | cons c text ih =>
    unfold splitLine at h
    split at h
    · simp only [Option.some.injEq] at h
      simp [← h]
    · have := ih h
      simp only [List.length_cons]
      omega

/-- The lines of a text, without their ends.  A text that ends in a line feed has no line after
it. -/
def lines (text : List Char) : List (List Char) :=
  match h : splitLine text with
  | (line, some rest) =>
    have : rest.length < text.length := splitLine_rest_length (congrArg Prod.snd h)
    dropReturn line :: lines rest
  | ([], none) => []
  | (line, none) => [line]
termination_by text.length

/-- The characters up to the first blank, after the blanks at the front; `none` if nothing is
left. -/
def firstToken? (text : List Char) : Option (List Char) :=
  match trimStart text with
  | [] => none
  | rest => some (rest.takeWhile fun c => !isBlank c)

/-- `text` without `front`, if it starts with it. -/
def dropFront? [DecidableEq α] : List α → List α → Option (List α)
  | [], text => some text
  | _ :: _, [] => none
  | a :: front, b :: text => if a = b then dropFront? front text else none

theorem dropFront?_eq_some_iff [DecidableEq α] {front text rest : List α} :
    dropFront? front text = some rest ↔ text = front ++ rest := by
  induction front generalizing text with
  | nil => simp [dropFront?, eq_comm]
  | cons a front ih =>
    cases text with
    | nil => simp [dropFront?]
    | cons b text =>
      simp only [dropFront?, List.cons_append, List.cons.injEq]
      split <;> grind

/-- `text` without as many copies of the nonempty `front` as it starts with. -/
def dropFronts [DecidableEq α] (front text : List α) : List α :=
  match _h : dropFront? front text with
  | some rest => if front = [] then text else dropFronts front rest
  | none => text
termination_by text.length
decreasing_by
  rw [dropFront?_eq_some_iff] at _h
  subst _h
  cases front with
  | nil => contradiction
  | cons a front =>
    simp only [List.length_append, List.length_cons]
    omega

/-- The parts of `text` between the occurrences of the nonempty `separator`, read from the left. -/
def splitOn [DecidableEq α] (separator text : List α) : List (List α) :=
  go text.length [] text
where
  /-- Go on with the part that has been read so far, in reverse. -/
  go : Nat → List α → List α → List (List α)
    | 0, part, text => [part.reverse ++ text]
    | fuel + 1, part, text =>
      match dropFront? separator text with
      | some rest => part.reverse :: go fuel [] rest
      | none =>
        match text with
        | [] => [part.reverse]
        | c :: rest => go fuel (c :: part) rest

end EmbeddedRuby.Text
