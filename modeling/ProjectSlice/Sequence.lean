/-! Plain sequences. `after?` reads a fixed beginning, `dropEndWhile` cuts an end, `chunks` cuts a
sequence behind every stop mark, and `ascending` turns a sequence into the strictly ascending list
of its members. Main statements: `after?` undoes `++`, and `ascending` has the same members as its
argument and is strictly ascending for the order of texts and of byte strings. -/
namespace ProjectSlice.Sequence

variable {α : Type}

def after? [DecidableEq α] : List α → List α → Option (List α)
  | [],s => some s
  | _::_,[] => none
  | f::front,x::s => if f = x then after? front s else none

theorem afterIff [DecidableEq α] {front s rest : List α} :
    after? front s = some rest ↔ s = front ++ rest := by
  induction front generalizing s with
  | nil => simp [after?]
  | cons f front ih =>
    cases s with
    | nil => simp [after?]
    | cons x s =>
      by_cases same : f = x
      · simp [after?,same,ih]
      · simp [after?,same,Ne.symm same]

@[simp] theorem afterAppend [DecidableEq α] (front rest : List α) :
    after? front (front ++ rest) = some rest := afterIff.mpr rfl

def dropEndWhile (p : α → Bool) (s : List α) : List α := (s.reverse.dropWhile p).reverse

/-- The pieces of a sequence between stop marks; a last piece that no mark closes counts when it is
not empty. -/
def chunks [DecidableEq α] (stop : α) : List α → List (List α)
  | [] => []
  | x::s =>
    if x = stop then []::chunks stop s
    else match chunks stop s with
      | [] => [[x]]
      | piece::pieces => (x::piece)::pieces

def insertAscending [DecidableEq α] [LT α] [DecidableLT α] (x : α) : List α → List α
  | [] => [x]
  | y::ys =>
    if x < y then x::y::ys
    else if x = y then y::ys
    else y::insertAscending x ys

def ascending [DecidableEq α] [LT α] [DecidableLT α] (s : List α) : List α :=
  s.foldr insertAscending []

theorem memInsertAscending [DecidableEq α] [LT α] [DecidableLT α] {x z : α} {s : List α} :
    z ∈ insertAscending x s ↔ z = x ∨ z ∈ s := by
  induction s with
  | nil => simp [insertAscending]
  | cons y ys ih =>
    simp only [insertAscending]
    split
    · simp
    · split
      · rename_i same
        subst same
        simp
      · simp only [List.mem_cons,ih]
        grind

theorem memAscending [DecidableEq α] [LT α] [DecidableLT α] {z : α} {s : List α} :
    z ∈ ascending s ↔ z ∈ s := by
  induction s with
  | nil => simp [ascending]
  | cons x s ih =>
    show z ∈ insertAscending x (ascending s) ↔ _
    rw [memInsertAscending,ih,List.mem_cons]

theorem insertAscendingSorted {x : List α} [DecidableEq α] [LT α] [DecidableLT α]
    [Std.Irrefl (fun a b : α => a < b)] [Std.Asymm (fun a b : α => a < b)]
    [Std.Antisymm (fun a b : α => ¬ a < b)]
    [Trans (fun a b : α => a < b) (fun a b : α => a < b) (fun a b : α => a < b)]
    {s : List (List α)} (sorted : s.Pairwise (· < ·)) :
    (insertAscending x s).Pairwise (· < ·) := by
  induction s with
  | nil => simp [insertAscending]
  | cons y ys ih =>
    obtain ⟨first,rest⟩ := List.pairwise_cons.mp sorted
    simp only [insertAscending]
    split
    · rename_i below
      refine List.pairwise_cons.mpr ⟨?_,sorted⟩
      intro z mem
      rcases List.mem_cons.mp mem with rfl | mem
      · exact below
      · exact List.lt_trans below (first z mem)
    · split
      · exact sorted
      · rename_i above other
        refine List.pairwise_cons.mpr ⟨?_,ih rest⟩
        intro z mem
        rcases memInsertAscending.mp mem with rfl | mem
        · refine Decidable.byContradiction fun notAbove => other ?_
          exact List.le_antisymm notAbove above
        · exact first z mem

theorem ascendingSorted [DecidableEq α] [LT α] [DecidableLT α]
    [Std.Irrefl (fun a b : α => a < b)] [Std.Asymm (fun a b : α => a < b)]
    [Std.Antisymm (fun a b : α => ¬ a < b)]
    [Trans (fun a b : α => a < b) (fun a b : α => a < b) (fun a b : α => a < b)]
    (s : List (List α)) : (ascending s).Pairwise (· < ·) := by
  induction s with
  | nil => simp [ascending]
  | cons x s ih => exact insertAscendingSorted ih

end ProjectSlice.Sequence
