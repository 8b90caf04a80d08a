import Mathlib.Data.Nat.Digits.Defs
import EmbeddedRuby.Machine.State
import EmbeddedRuby.Proofs.Tokens

/-!
# The lines of a backtrace

The host is given the backtrace of an exception as lines: the frames are written one by one, joined
with line feeds, and the text is cut into lines again.  The text of a frame ends in a quote, and so no
line goes on over the end of a frame (`Frame.lines_join`).  A frame whose file and label are without
line feeds is one line (`Frame.lines_eq`).
-/

namespace EmbeddedRuby

namespace Text

/-- What stands before the first line feed is a line. -/
theorem lines_append_lineFeed {line : List Char} (hline : '\n' ∉ line) (rest : List Char) :
    lines (line ++ '\n' :: rest) = dropReturn line :: lines rest := by
  have hsplit : splitLine (line ++ '\n' :: rest) = (line, some rest) := by
    induction line with
    | nil => rfl
    | cons c line ih =>
        obtain ⟨hfirst, hlater⟩ := not_or.mp fun hmem => hline (List.mem_cons.mpr hmem)
        rw [List.cons_append]
        unfold splitLine
        rw [if_neg (Ne.symm hfirst), ih hlater]
  conv_lhs => unfold lines
  split
  · rename_i hfound
    rw [hsplit] at hfound
    cases hfound
    rfl
  · rename_i hfound
    rw [hsplit] at hfound
    cases hfound
  · rename_i hfound
    rw [hsplit] at hfound
    cases hfound

/-- A text that does not end in the middle of a line end has lines of its own. -/
theorem lines_append {text : List Char} {last : Char} (hlast : text.getLast? = some last)
    (hfeed : last ≠ '\n') (hreturn : last ≠ '\r') (rest : List Char) :
    lines (text ++ '\n' :: rest) = lines text ++ lines rest := by
  induction hsize : text.length using Nat.strong_induction_on generalizing text with
  | _ size ih =>
      by_cases hmem : '\n' ∈ text
      · obtain ⟨line, below, rfl, hline⟩ := List.eq_append_cons_of_mem hmem
        -- The text goes on behind its first line feed, and has the same end there.
        have hbelow : below.getLast? = some last := by
          rw [List.getLast?_append] at hlast
          cases below with
          | nil => exact absurd (Option.some.inj hlast).symm hfeed
          | cons c below => simpa using hlast
        have hshorter : below.length < size := by
          simp only [List.length_append, List.length_cons] at hsize
          omega
        rw [List.append_assoc, List.cons_append, lines_append_lineFeed hline,
          lines_append_lineFeed hline, ih below.length hshorter hbelow rfl, List.cons_append]
      · have hsome : text ≠ [] := by
          rintro rfl
          cases hlast
        have hkept : dropReturn text = text := by
          unfold dropReturn
          rw [hlast, if_neg fun hsame => hreturn (Option.some.inj hsame)]
        rw [lines_append_lineFeed hmem, lines_of_noLineFeed hsome hmem, hkept]
        rfl

end Text

namespace Frame

/-- The lines in which the host is told of a frame. -/
def lines (f : Frame) : List String :=
  (Text.lines f.render.toList).map String.ofList

theorem toList_render (f : Frame) :
    f.render.toList = f.file.toList ++ (":".toList ++ (Nat.toDigits 10 f.line ++
      (":in '".toList ++ (f.label.toList ++ "'".toList)))) := by
  have hnumber : (toString f.line).toList = Nat.toDigits 10 f.line := String.toList_ofList
  unfold render
  simp only [String.toList_append, List.append_assoc, hnumber]
  rfl

theorem getLast?_render (f : Frame) : f.render.toList.getLast? = some '\'' := by
  rw [toList_render]
  simp only [← List.append_assoc]
  exact List.getLast?_concat

/-- A frame is told of in one line if its file and its label are without line feeds. -/
theorem lines_eq {f : Frame} (hfile : '\n' ∉ f.file.toList) (hlabel : '\n' ∉ f.label.toList) :
    f.lines = [f.render] := by
  have hsome : f.render.toList ≠ [] := by
    intro hnil
    have hlast := f.getLast?_render
    rw [hnil] at hlast
    cases hlast
  have hnumber : '\n' ∉ Nat.toDigits 10 f.line := by
    intro hmem
    have hdigit := Nat.isDigit_of_mem_toDigits (by decide) (by decide) hmem
    revert hdigit
    decide
  have hnone : '\n' ∉ f.render.toList := by
    rw [toList_render]
    simp only [List.mem_append, hfile, hnumber, hlabel, false_or]
    decide
  unfold lines
  rw [Text.lines_of_noLineFeed hsome hnone, List.map_singleton, String.ofList_toList]

/-- **No line goes on over the end of a frame.** -/
theorem lines_join (frames : List Frame) :
    (Text.lines ("\n".intercalate (frames.map render)).toList).map String.ofList =
      frames.flatMap lines := by
  induction frames with
  | nil =>
      have hnone : Text.lines [] = [] := by
        unfold Text.lines
        rfl
      rw [List.map_nil, String.intercalate_nil, String.toList_empty, hnone]
      rfl
  | cons f rest ih =>
      cases rest with
      | nil =>
          rw [List.map_singleton, String.intercalate_singleton, List.flatMap_singleton]
          rfl
      | cons g rest =>
          have hfeed : "\n".toList = ['\n'] := rfl
          rw [List.map_cons, List.map_cons, String.intercalate_cons_cons, ← List.map_cons,
            String.toList_append, String.toList_append, hfeed, List.append_assoc,
            List.singleton_append, Text.lines_append f.getLast?_render (by decide) (by decide),
            List.map_append, ih, List.flatMap_cons]
          rfl

end Frame

end EmbeddedRuby
