import ProjectSlice.Sequence
import ProjectSlice.Text.Blank

/-! Trimming, lines and joining of texts. A line ends at a line feed, which takes one carriage
return before it along; a last line without line feed keeps its characters, and no empty line
follows the last line feed. Main statement: a text that ends in a line feed contributes its own
lines to any text that continues it. -/
namespace ProjectSlice.Text
open Sequence

def trimStart (t : Text) : Text := t.dropWhile isBlank

def trimEnd (t : Text) : Text := dropEndWhile isBlank t

def trim (t : Text) : Text := trimEnd (trimStart t)

def lines : Text → List Text
  | [] => []
  | c::t =>
    if c = '\n' then []::lines t
    else if c = '\r' ∧ t.head? = some '\n' then lines t
    else match lines t with
      | [] => [[c]]
      | line::rest => (c::line)::rest

def joined (mark : Text) (parts : List Text) : Text := mark.intercalate parts

def lower (t : Text) : Text := t.map Char.toLower

theorem linesNonempty (a b : Text) : ∃ line rest, lines (a ++ '\n'::b) = line::rest := by
  induction a with
  | nil => exact ⟨[],lines b,rfl⟩
  | cons c a ih =>
    obtain ⟨line,rest,same⟩ := ih
    simp only [List.cons_append,lines,same]
    split
    · exact ⟨_,_,rfl⟩
    · split
      · exact ⟨_,_,rfl⟩
      · exact ⟨_,_,rfl⟩

theorem linesAppend (a b : Text) : lines (a ++ '\n'::b) = lines (a ++ ['\n']) ++ lines b := by
  induction a with
  | nil => rfl
  | cons c a ih =>
    have head : (a ++ '\n'::b).head? = (a ++ ['\n']).head? := by cases a <;> rfl
    obtain ⟨line,rest,same⟩ := linesNonempty a []
    simp only [List.cons_append,lines,head,ih,same]
    split
    · rfl
    · split <;> rfl

end ProjectSlice.Text
