import ProjectSlice.Text.Basic

/-! Pieces and lines. Whatever closes its pieces with a mark that stands in none of them is cut back
into these pieces. Main statements: pieces that were closed one by one are read back, no piece and no
line contains the mark it was cut at, and a text of whole lines has a line for each line feed, which
whatever follows leaves as they are. -/
namespace ProjectSlice

namespace Sequence
variable {α : Type} [DecidableEq α] {stop : α}

theorem chunksAppend {piece : List α} (free : stop ∉ piece) (rest : List α) :
    chunks stop (piece ++ stop::rest) = piece::chunks stop rest := by
  induction piece with
  | nil => simp [chunks]
  | cons x piece ih =>
    rw [List.mem_cons,not_or] at free
    rw [List.cons_append,chunks,if_neg (Ne.symm free.1),ih free.2]

theorem chunksOpen {piece : List α} (free : stop ∉ piece) :
    chunks stop piece = if piece = [] then [] else [piece] := by
  induction piece with
  | nil => rfl
  | cons x piece ih =>
    rw [List.mem_cons,not_or] at free
    rw [chunks,if_neg (Ne.symm free.1),ih free.2]
    cases piece <;> rfl

theorem chunksClosed {pieces : List (List α)} (free : ∀ piece ∈ pieces, stop ∉ piece) :
    chunks stop (pieces.flatMap (· ++ [stop])) = pieces := by
  induction pieces with
  | nil => rfl
  | cons piece pieces ih =>
    obtain ⟨first,others⟩ := List.forall_mem_cons.mp free
    rw [List.flatMap_cons,List.append_assoc,List.singleton_append,chunksAppend first,ih others]

theorem chunkFree {s piece : List α} (mem : piece ∈ chunks stop s) : stop ∉ piece := by
  induction s generalizing piece with
  | nil => contradiction
  | cons x s ih =>
    rw [chunks] at mem
    split at mem
    · rcases List.mem_cons.mp mem with rfl | later
      · exact List.not_mem_nil
      · exact ih later
    · rename_i goesOn
      split at mem
      · rw [List.mem_singleton.mp mem,List.mem_singleton]
        exact Ne.symm goesOn
      · rename_i first pieces cut
        rcases List.mem_cons.mp mem with rfl | later
        · rw [List.mem_cons,not_or]
          exact ⟨Ne.symm goesOn,ih (by rw [cut]; exact List.mem_cons_self)⟩
        · exact ih (by rw [cut]; exact List.mem_cons_of_mem _ later)

end Sequence

namespace Text

theorem lineFree {t line : Text} (mem : line ∈ lines t) : '\n' ∉ line := by
  induction t generalizing line with
  | nil => contradiction
  | cons c t ih =>
    rw [lines] at mem
    split at mem
    · rcases List.mem_cons.mp mem with rfl | later
      · exact List.not_mem_nil
      · exact ih later
    · rename_i goesOn
      split at mem
      · exact ih mem
      · split at mem
        · rw [List.mem_singleton.mp mem,List.mem_singleton]
          exact Ne.symm goesOn
        · rename_i first rest cut
          rcases List.mem_cons.mp mem with rfl | later
          · rw [List.mem_cons,not_or]
            exact ⟨Ne.symm goesOn,ih (by rw [cut]; exact List.mem_cons_self)⟩
          · exact ih (by rw [cut]; exact List.mem_cons_of_mem _ later)

/- A line feed ends the line that is read, and a carriage return before it goes with it, so what
follows neither adds to that line nor takes from it. -/
theorem linesBehind {a : Text} (closed : a = [] ∨ a.getLast? = some '\n') (b : Text) :
    lines (a ++ b) = lines a ++ lines b := by
  rcases closed with rfl | last
  · rfl
  · obtain ⟨front,rfl⟩ := List.getLast?_eq_some_iff.mp last
    rw [List.append_assoc,List.singleton_append]
    exact linesAppend front b

theorem linesCounted {a : Text} (closed : a = [] ∨ a.getLast? = some '\n') :
    (lines a).length = a.count '\n' := by
  rcases closed with rfl | last
  · rfl
  · obtain ⟨front,rfl⟩ := List.getLast?_eq_some_iff.mp last
    clear last
    induction front with
    | nil => rfl
    | cons c front ih =>
      obtain ⟨line,rest,cut⟩ := linesNonempty front []
      rw [cut] at ih
      rw [List.cons_append,lines,cut]
      split
      · rename_i same
        rw [same,List.length_cons,ih,List.count_cons_self]
      · rename_i other
        rw [List.count_cons_of_ne other]
        split
        · exact ih
        · exact ih

end Text
end ProjectSlice
