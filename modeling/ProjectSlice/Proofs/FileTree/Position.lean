import ProjectSlice.Proofs.FileTree.Lookup

/-! Paths of positions. Names with slashes in between neither begin nor end in a slash, so the names
of two paths can be put one behind the other. Main statements: the path of a position joined with
further names is the path of the longer position, its steps are the names, and two positions have
two paths. -/
namespace ProjectSlice.Volume
open ProjectSlice.Path (slash dot IsSegment)

section
variable {names : List Bytes} (nonempty : names ≠ []) (valid : ∀ name ∈ names, IsSegment name)
include nonempty valid

theorem splitNames : ([slash].intercalate names).splitOn slash = names :=
  List.splitOn_intercalate slash (fun name mem => (valid name mem).2.2.2) nonempty

theorem namesRelative : Path.isAbsolute ([slash].intercalate names) = false := by
  have split := splitNames nonempty valid
  obtain ⟨first,rest,rfl⟩ := List.exists_cons_of_ne_nil nonempty
  exact Path.relativeOfSplit (valid first List.mem_cons_self).1 split

theorem namesEnd : ∃ last, last ≠ slash ∧ ([slash].intercalate names).getLast? = some last := by
  induction names with
  | nil => contradiction
  | cons name names ih =>
    obtain ⟨first,rest⟩ := List.forall_mem_cons.mp valid
    by_cases single : names = []
    · subst single
      refine ⟨name.getLast first.1,?_,?_⟩
      · exact fun same => first.2.2.2 (same ▸ List.getLast_mem first.1)
      · rw [List.intercalate_singleton,List.getLast?_eq_some_getLast first.1]
    · obtain ⟨last,other,ends⟩ := ih single rest
      refine ⟨last,other,?_⟩
      rw [List.intercalate_cons_of_ne_nil single,List.getLast?_append,ends,Option.some_or]

theorem behindNames (front : Bytes) :
    (front ++ slash::[slash].intercalate names).getLast? ≠ some slash := by
  obtain ⟨last,other,ends⟩ := namesEnd nonempty valid
  rw [List.getLast?_append,List.getLast?_cons,ends]
  exact fun same => other (Option.some.inj same)

theorem stepsBehind (front : Path) :
    steps (front ++ slash::[slash].intercalate names) =
      (Path.segments front).filter (· ≠ []) ++ names := by
  have kept : names.filter (· ≠ []) = names :=
    List.filter_eq_self.mpr fun name mem => decide_eq_true (valid name mem).1
  unfold steps Path.segments
  rw [if_neg (behindNames nonempty valid front),List.append_nil,List.splitOn_append_cons_self,
    splitNames nonempty valid,List.filter_append,kept]

theorem stepsPathOf : steps (pathOf names) = names := stepsBehind nonempty valid []

end

theorem intercalateAppend {before below : List Bytes} (nonempty : before ≠ [])
    (further : below ≠ []) : [slash].intercalate (before ++ below) =
      [slash].intercalate before ++ slash::[slash].intercalate below := by
  induction before with
  | nil => contradiction
  | cons name before ih =>
    by_cases single : before = []
    · subst single
      rw [List.singleton_append,List.intercalate_cons_of_ne_nil further,List.intercalate_singleton,
        List.append_assoc]
      rfl
    · have later : before ++ below ≠ [] := fun empty => single (List.append_eq_nil_iff.mp empty).1
      rw [List.cons_append,List.intercalate_cons_of_ne_nil later,
        List.intercalate_cons_of_ne_nil single,ih single,List.append_assoc,List.append_assoc,
        List.append_assoc]

theorem joinBelow {position below : Position} (further : below ≠ [])
    (above : ∀ name ∈ position, IsSegment name)
    (relative : Path.isAbsolute ([slash].intercalate below) = false) :
    (pathOf position).join ([slash].intercalate below) = pathOf (position ++ below) := by
  unfold Path.join
  rw [if_neg (Bool.eq_false_iff.mp relative)]
  by_cases top : position = []
  · subst top
    exact if_pos (Or.inr rfl)
  · have rooted : ¬(pathOf position = [] ∨ (pathOf position).getLast? = some slash) :=
      not_or.mpr ⟨List.cons_ne_nil _ _,behindNames top above []⟩
    rw [if_neg rooted,pathOf,pathOf,intercalateAppend top further]
    rfl

theorem joinPathOf {position below : Position} (further : below ≠ [])
    (valid : ∀ name ∈ position ++ below, IsSegment name) :
    (pathOf position).join ([slash].intercalate below) = pathOf (position ++ below) := by
  obtain ⟨above,inside⟩ := List.forall_mem_append.mp valid
  exact joinBelow further above (namesRelative further inside)

theorem pathOfInjective {p q : Position} (nonemptyP : p ≠ []) (nonemptyQ : q ≠ [])
    (validP : ∀ name ∈ p, IsSegment name) (validQ : ∀ name ∈ q, IsSegment name)
    (same : pathOf p = pathOf q) : p = q := by
  rw [← stepsPathOf nonemptyP validP,same,stepsPathOf nonemptyQ validQ]

theorem positionOfFile {top : Listing} (sound : top.WellFormed) {p own : Position} {content : Bytes}
    (nonempty : p ≠ []) (valid : ∀ name ∈ p, IsSegment name) (same : pathOf p = pathOf own)
    (entry : top.at? own = some (.file content)) : p = own := by
  have named : own ≠ [] := by
    rintro rfl
    cases entry
  refine pathOfInjective nonempty named valid (fun name mem => ?_) same
  exact segmentOfValid ((Listing.wellFormedAt sound entry).1 name mem)

theorem pathOfLonger (position below : Position) :
    (pathOf position).length ≤ (pathOf (position ++ below)).length := by
  by_cases further : below = []
  · simp only [further,List.append_nil,Nat.le_refl]
  · by_cases top : position = []
    · subst top
      exact Nat.succ_le_succ (Nat.zero_le _)
    · rw [pathOf,pathOf,intercalateAppend top further,List.length_cons,List.length_cons,
        List.length_append]
      omega

end ProjectSlice.Volume
