import ProjectSlice.Proofs.HeadLines
import ProjectSlice.Proofs.Utf8.Cut
import ProjectSlice.Proofs.Words

/-! Two ways to read a file. The head of a file is cut into lines before it is decoded, its text
after; what is cut off the ends of lines makes up for what the two take for a line end. Main
statement: both fail alike, and the head is the first lines of the text without the carriage returns
at their ends. -/
namespace ProjectSlice
open Sequence Text

namespace Text

theorem dropEndAgain (p : Char → Bool) (front t : Text) :
    dropEndWhile p (front ++ dropEndWhile p t) = dropEndWhile p (front ++ t) := by
  obtain ⟨back,whole,all⟩ := dropEndInside p t
  conv_rhs => rw [whole,← List.append_assoc,dropEndBehind all]

def unreturned (line : Text) : Text := dropEndWhile (· == '\r') line

theorem unreturnedCons {s t : Text} (same : unreturned s = unreturned t) (c : Char) :
    unreturned (c::s) = unreturned (c::t) := by
  have again := dropEndAgain (· == '\r') [c]
  rw [unreturned,unreturned] at *
  exact (again s).symm.trans ((congrArg _ (congrArg _ same)).trans (again t))

/- A line takes one carriage return before its line feed along, a piece takes none. -/
theorem linesOfChunks (t : Text) : (lines t).map unreturned = (chunks '\n' t).map unreturned := by
  induction t with
  | nil => rfl
  | cons c t ih =>
    rw [lines,chunks]
    split
    · exact congrArg ([] :: ·) ih
    · split
      · rename_i returned
        obtain ⟨rfl,feeds⟩ := returned
        obtain ⟨rest,rfl⟩ := List.head?_eq_some_iff.mp feeds
        have cut : chunks '\n' ('\n'::rest) = []::chunks '\n' rest := by simp [chunks]
        rw [ih,cut]
        rfl
      · generalize lines t = cutLines at ih ⊢
        generalize chunks '\n' t = pieces at ih ⊢
        cases cutLines with
        | nil =>
          rw [List.map_eq_nil_iff.mp ih.symm]
        | cons line others =>
          obtain ⟨piece,pieces,rfl,first,rest⟩ := List.map_eq_cons_iff.mp ih.symm
          rw [List.map_cons,List.map_cons,unreturnedCons first c,rest]

end Text

namespace SourceText

theorem headOfText (most : Nat) (content : Bytes) :
    headOf most content =
      ((lines (Utf8.decodeLossy content)).take most).map unreturned := by
  calc headOf most content
      = (((chunks 10 content).map Utf8.decodeLossy).take most).map unreturned := by
        rw [headOf,← List.map_take,List.map_map]
        rfl
    _ = ((lines (Utf8.decodeLossy content)).take most).map unreturned := by
        rw [← Utf8.chunksDecode,List.map_take,List.map_take,linesOfChunks]

section
variable {v : Volume} {p : Path}

theorem headFails {most : Nat} (asked : 1 ≤ most) (failure : ReadFailure) :
    head v p most = .error failure ↔ read v p = .error failure := by
  rw [head,if_neg (Nat.ne_of_gt asked),read]
  cases bytes v p <;> simp [Except.map]

/-- A file whose head is asked for can be read as a head exactly if it can be read as a whole, for
the same reason if not; the head is the first lines of the text without the carriage returns at
their ends. Bytes that are no characters are replaced alike in the pieces and in the whole. -/
theorem headAgrees {most : Nat} (asked : 1 ≤ most) :
    (∀ failure, head v p most = .error failure ↔ read v p = .error failure) ∧
    (∀ text, read v p = .ok text →
      head v p most = .ok (((lines text).take most).map (dropEndWhile (· == '\r')))) ∧
    ∀ content, (chunks 10 content).map Utf8.decodeLossy =
      chunks '\n' (Utf8.decodeLossy content) := by
  refine ⟨headFails asked,fun text whole => ?_,fun content => (Utf8.chunksDecode content).symm⟩
  rw [read] at whole
  rw [head,if_neg (Nat.ne_of_gt asked)]
  cases got : bytes v p with
  | error failure =>
    rw [got] at whole
    contradiction
  | ok content =>
    rw [got] at whole
    cases whole
    exact congrArg Except.ok (headOfText most content)

end

/- A directory, and a file in which a character is broken by a line feed, another one by the end, and
lines end in several carriage returns. -/
def scroll : Volume :=
  let broken : Bytes := [0xE2,0x82,10,0xAC,0x61,13,13,10,13,0xF0,0x9F]
  ⟨.folder (Path.ofText "lib".toList) .empty (.file (Path.ofText "old.php".toList) broken .empty),[]⟩

theorem scrollRead :
    let old := Path.ofText "/old.php".toList
    let lib := Path.ofText "/lib".toList
    1 ≤ 3 ∧
    read scroll old = .ok "\uFFFD\n\uFFFDa\r\r\n\r\uFFFD".toList ∧
    head scroll old 3 = .ok ["\uFFFD".toList,"\uFFFDa".toList,"\r\uFFFD".toList] ∧
    read scroll lib = .error (.reading lib .isDirectory) ∧
    head scroll lib 3 = .error (.reading lib .isDirectory) := by
  intro old lib
  have asked : 1 ≤ 3 := by decide
  have whole : read scroll old = .ok "\uFFFD\n\uFFFDa\r\r\n\r\uFFFD".toList := by decide +kernel
  have fails : read scroll lib = .error (.reading lib .isDirectory) := by decide +kernel
  exact ⟨asked,whole,((headAgrees asked).2.1 _ whole).trans (by decide +kernel),fails,
    ((headAgrees asked).1 _).mpr fails⟩

end SourceText
end ProjectSlice
