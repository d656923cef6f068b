import Mathlib.Data.List.Basic
import Mathlib.Data.List.Nodup

/-! First occurrences. `firsts` keeps the members of a sequence whose key has not come before, and
`foldGrows` carries a statement about everything met so far through a loop. Main statements: the
keys kept are pairwise different, every key is kept, a member is kept exactly where no earlier
member has its key, and what is kept of a sequence of blocks depends on what is kept of each block
alone. -/
namespace ProjectSlice.Sequence

variable {α β γ σ : Type} [DecidableEq β]

def firsts (key : α → β) : List α → List α
  | [] => []
  | x::s => x::(firsts key s).filter fun y => key y ≠ key x

/- What a loop does step by step: one more member either repeats a key or is kept at the end. -/
theorem firstsConcat (key : α → β) (s : List α) (x : α) :
    firsts key (s ++ [x]) =
      if key x ∈ s.map key then firsts key s else firsts key s ++ [x] := by
  induction s with
  | nil => rfl
  | cons y s ih =>
    rw [List.cons_append,firsts,ih]
    by_cases later : key x ∈ s.map key
    · have either : key x ∈ (y::s).map key := List.mem_cons_of_mem _ later
      rw [if_pos later,if_pos either,firsts]
    · rw [if_neg later,List.filter_append]
      by_cases same : key x = key y
      · have either : key x ∈ (y::s).map key := by rw [same]; exact List.mem_cons_self
        rw [if_pos either,firsts]
        simp [same]
      · have neither : key x ∉ (y::s).map key := by
          rw [List.map_cons,List.mem_cons]
          exact not_or.mpr ⟨same,later⟩
        rw [if_neg neither,firsts]
        simp [same]

theorem firstsSublist (key : α → β) (s : List α) : (firsts key s).Sublist s := by
  induction s with
  | nil => exact List.Sublist.slnil
  | cons x s ih => exact (List.filter_sublist.trans ih).cons_cons x

theorem memFirsts {key : α → β} {s : List α} {x : α} :
    x ∈ firsts key s ↔ ∃ before after, s = before ++ x::after ∧ key x ∉ before.map key := by
  induction s with
  | nil => simp [firsts]
  | cons y s ih =>
    simp only [firsts,List.mem_cons,List.mem_filter,ih,decide_eq_true_eq]
    constructor
    · rintro (rfl | ⟨⟨before,after,rfl,absent⟩,different⟩)
      · exact ⟨[],s,rfl,List.not_mem_nil⟩
      · refine ⟨y::before,after,rfl,?_⟩
        rw [List.map_cons,List.mem_cons]
        exact not_or.mpr ⟨different,absent⟩
    · rintro ⟨before,after,shape,absent⟩
      cases before with
      | nil =>
        injection shape with head _
        exact Or.inl head.symm
      | cons z before =>
        injection shape with head tail
        rw [List.map_cons,List.mem_cons,not_or] at absent
        exact Or.inr ⟨⟨before,after,tail,absent.2⟩,head ▸ absent.1⟩

theorem keysFirstsNodup (key : α → β) (s : List α) : ((firsts key s).map key).Nodup := by
  induction s with
  | nil => exact List.nodup_nil
  | cons x s ih =>
    rw [firsts,List.map_cons,List.nodup_cons]
    constructor
    · intro mem
      obtain ⟨y,kept,same⟩ := List.mem_map.mp mem
      exact (of_decide_eq_true (List.mem_filter.mp kept).2) same
    · exact ih.sublist (List.filter_sublist.map key)

theorem memKeysFirsts {key : α → β} {s : List α} {k : β} :
    k ∈ (firsts key s).map key ↔ k ∈ s.map key := by
  induction s with
  | nil => exact Iff.rfl
  | cons x s ih =>
    rw [firsts,List.map_cons,List.mem_cons,List.map_cons,List.mem_cons,← ih]
    by_cases same : k = key x
    · simp [same]
    · simp only [same,false_or,List.mem_map,List.mem_filter,decide_eq_true_eq]
      constructor
      · rintro ⟨y,⟨kept,_⟩,rfl⟩
        exact ⟨y,kept,rfl⟩
      · rintro ⟨y,kept,rfl⟩
        exact ⟨y,⟨kept,same⟩,rfl⟩

theorem firstsFilter (key : α → β) (p : β → Bool) (s : List α) :
    firsts key (s.filter fun x => p (key x)) = (firsts key s).filter fun x => p (key x) := by
  induction s with
  | nil => rfl
  | cons x s ih =>
    rw [firsts,List.filter_cons,List.filter_cons,List.filter_comm]
    by_cases holds : p (key x) = true
    · rw [if_pos holds,if_pos holds,firsts,ih]
    · rw [if_neg holds,if_neg holds,ih]
      symm
      rw [List.filter_eq_self]
      intro y kept
      rw [decide_eq_true_eq]
      intro same
      exact holds (same ▸ (List.mem_filter.mp kept).2)

theorem firstsMap (key : α → β) (f : γ → α) (s : List γ) :
    firsts key (s.map f) = (firsts (fun x => key (f x)) s).map f := by
  induction s with
  | nil => rfl
  | cons x s ih => simp only [List.map_cons,firsts,ih,List.filter_map]; rfl

theorem firstsAppend (key : α → β) (s t : List α) :
    firsts key (s ++ t) = firsts key s ++ (firsts key t).filter fun y => key y ∉ s.map key := by
  induction s with
  | nil => simp [firsts]
  | cons x s ih =>
    simp only [List.cons_append,firsts,ih,List.filter_append,List.filter_filter,List.map_cons,
      List.mem_cons,not_or,Bool.decide_and]

theorem firstsAgain {key : α → β} {s t : List α} (covered : ∀ y ∈ t, key y ∈ s.map key) :
    firsts key (s ++ t) = firsts key s := by
  rw [firstsAppend,List.append_right_eq_self,List.filter_eq_nil_iff]
  intro y kept
  simpa using covered y ((firstsSublist key t).subset kept)

theorem firstsFlatMap {key : α → β} {f g : γ → List α} {s : List γ}
    (same : ∀ x ∈ s, firsts key (f x) = firsts key (g x)) :
    firsts key (s.flatMap f) = firsts key (s.flatMap g) := by
  induction s with
  | nil => rfl
  | cons x s ih =>
    obtain ⟨head,tail⟩ := List.forall_mem_cons.mp same
    have keys (k : β) : k ∈ (f x).map key ↔ k ∈ (g x).map key := by
      rw [← memKeysFirsts,head,memKeysFirsts]
    simp only [List.flatMap_cons,firstsAppend,head,ih tail,keys]

/- In a sequence that is in order, a member kept stands before all others with its key. -/
theorem firstsLeast {key : α → β} {before : α → α → Prop} {s : List α} {x y : α}
    (ordered : s.Pairwise before) (kept : x ∈ firsts key s) (mem : y ∈ s)
    (same : key y = key x) : y = x ∨ before x y := by
  obtain ⟨early,late,rfl,absent⟩ := memFirsts.mp kept
  rcases List.mem_append.mp mem with inside | inside
  · exact absurd (same ▸ List.mem_map_of_mem inside) absent
  · rcases List.mem_cons.mp inside with rfl | inside
    · exact Or.inl rfl
    · obtain ⟨_,ordered,_⟩ := List.pairwise_append.mp ordered
      exact Or.inr ((List.pairwise_cons.mp ordered).1 y inside)

omit [DecidableEq β] in
theorem zipIdxOrdered (s : List α) (n : Nat) : (s.zipIdx n).Pairwise fun a b => a.2 < b.2 := by
  have positions := List.pairwise_lt_range' (s := n) (n := s.length)
  rw [← List.zipIdx_map_snd n s,List.pairwise_map] at positions
  exact positions

omit [DecidableEq β] in
theorem idxOfLeast [BEq β] [LawfulBEq β] {s : List β} {i : Nat} {x : β}
    (found : s[i]? = some x) : s.idxOf x ≤ i := by
  induction s generalizing i with
  | nil => contradiction
  | cons y s ih =>
    cases i with
    | zero =>
      cases Option.some.inj found
      exact Nat.le_of_eq List.idxOf_cons_self
    | succ i =>
      by_cases same : y = x
      · rw [same,List.idxOf_cons_self]
        exact Nat.zero_le _
      · rw [List.idxOf_cons_ne s same]
        exact Nat.succ_le_succ (ih found)

omit [DecidableEq β] in
/-- A loop over `s` of which every round adds what `grow` says to what lies behind it. -/
theorem foldGrows (holds : List γ → σ → Prop) {step : σ → α → σ} {grow : α → List γ}
    (round : ∀ done state x, holds done state → holds (done ++ grow x) (step state x))
    (s : List α) {done : List γ} {state : σ} (start : holds done state) :
    holds (done ++ s.flatMap grow) (s.foldl step state) := by
  induction s generalizing done state with
  | nil => simpa using start
  | cons x s ih =>
    rw [List.flatMap_cons,← List.append_assoc,List.foldl_cons]
    exact ih (round done state x start)

end ProjectSlice.Sequence
