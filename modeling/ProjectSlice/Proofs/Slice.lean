import Mathlib.Data.List.Sort
import ProjectSlice.Proofs.Dependency
import ProjectSlice.Proofs.Utf8.Order
import ProjectSlice.Slice

/-! Slices of selections. What one selected file needs (itself, the files its references hit, the
targets of its includes) does not depend on what else is selected. Main statement: the slice of two
selections together has the files of both slices, in ascending byte order. -/
namespace ProjectSlice.Slice
open Sequence Analysis

def ofSelection (v : Volume) (references : Extractor) (index : ClassIndex) (root : Path)
    (withIncludes : Bool) (selected : List Text) : List Text :=
  files selected (resolveBy v references index root withIncludes selected)

def targets (includes : List SelectedInclude) : List Text :=
  (includes.filter fun i => i.found.isResolved).map fun i => i.found.resolved

def needs (v : Volume) (references : Extractor) (index : ClassIndex) (root : Path)
    (withIncludes : Bool) (source : Text) : List Text :=
  source::(hitsIn references index root source).map Dependency.file ++
    targets (includesIn v references root withIncludes source)

section
variable {v : Volume} {references : Extractor} {index : ClassIndex} {root : Path}
  {withIncludes : Bool}

theorem memTargets {includes : List SelectedInclude} {file : Text} :
    file ∈ targets includes ↔
      ∃ i ∈ includes, i.found.isResolved = true ∧ i.found.resolved = file := by
  simp only [targets,List.mem_map,List.mem_filter,and_assoc]

/- A hit inside the selection is no dependency, but then its file is selected, and so in the slice
all the same. -/
theorem memOfSelection {selected : List Text} {file : Text} :
    file ∈ ofSelection v references index root withIncludes selected ↔
      ∃ source ∈ selected, file ∈ needs v references index root withIncludes source := by
  have reached : file ∈ ofSelection v references index root withIncludes selected ↔
      file ∈ selected ∨
      file ∈ (trail references index root selected).map Dependency.file ∨
      file ∈ targets (selected.flatMap (includesIn v references root withIncludes)) := by
    unfold ofSelection files
    rw [memAscending,List.mem_append,List.mem_append,memDependencyFiles,includesOfSelection,
      or_assoc]
    by_cases inside : file ∈ selected
    · simp only [inside,true_or]
    · simp only [inside,not_false_eq_true,and_true]
      exact Iff.rfl
  rw [reached]
  constructor
  · rintro (inside | hit | target)
    · exact ⟨file,inside,List.mem_append_left _ List.mem_cons_self⟩
    · obtain ⟨d,mem,rfl⟩ := List.mem_map.mp hit
      obtain ⟨source,inside,mem⟩ := List.mem_flatMap.mp mem
      exact ⟨source,inside,
        List.mem_append_left _ (List.mem_cons_of_mem _ (List.mem_map_of_mem mem))⟩
    · obtain ⟨i,mem,resolved⟩ := memTargets.mp target
      obtain ⟨source,inside,mem⟩ := List.mem_flatMap.mp mem
      exact ⟨source,inside,List.mem_append_right _ (memTargets.mpr ⟨i,mem,resolved⟩)⟩
  · rintro ⟨source,inside,need⟩
    rcases List.mem_append.mp need with own | target
    · rcases List.mem_cons.mp own with rfl | hit
      · exact Or.inl inside
      · obtain ⟨d,mem,rfl⟩ := List.mem_map.mp hit
        exact Or.inr (Or.inl (List.mem_map_of_mem (List.mem_flatMap.mpr ⟨source,inside,mem⟩)))
    · obtain ⟨i,mem,resolved⟩ := memTargets.mp target
      exact Or.inr (Or.inr
        (memTargets.mpr ⟨i,List.mem_flatMap.mpr ⟨source,inside,mem⟩,resolved⟩))

theorem ofSelectionAscending (selected : List Text) :
    (ofSelection v references index root withIncludes selected).Pairwise (· < ·) := by
  have : Std.Antisymm fun a b : Char => ¬a < b := Std.Trichotomous.antisymm_not
  exact ascendingSorted _

theorem sliceMonotone {s t : List Text} (within : s ⊆ t) :
    ofSelection v references index root withIncludes s ⊆
      ofSelection v references index root withIncludes t := by
  intro file mem
  obtain ⟨source,inside,need⟩ := memOfSelection.mp mem
  exact memOfSelection.mpr ⟨source,within inside,need⟩

/-- The slice of two selections is the union of their slices in ascending byte order; so neither
the order nor the repetition of selected files matters, and no file of a part is lost. -/
theorem sliceUnion (v : Volume) (references : Extractor) (index : ClassIndex) (root : Path)
    (withIncludes : Bool) (s t : List Text) :
    let slice := ofSelection v references index root withIncludes
    (slice (s ++ t)).Pairwise (fun a b => Utf8.encode a < Utf8.encode b) ∧
    (∀ file, file ∈ slice (s ++ t) ↔ file ∈ slice s ∨ file ∈ slice t) ∧
    ((∀ file, file ∈ s ↔ file ∈ t) → slice s = slice t) ∧
    (s ⊆ t → slice s ⊆ slice t) ∧
    ∀ file, file ∈ slice s ↔ ∃ source ∈ s, file ∈ slice [source] := by
  refine ⟨(ofSelectionAscending _).imp Utf8.encodeBelow,?_,?_,sliceMonotone,?_⟩
  · intro file
    simp only [memOfSelection,List.mem_append,or_and_right,exists_or]
  · intro same
    refine (ofSelectionAscending s).eq_of_mem_iff (ofSelectionAscending t) fun file => ?_
    rw [memOfSelection,memOfSelection]
    simp only [same]
  · intro file
    simp only [memOfSelection,List.mem_singleton,exists_eq_left]

end
end ProjectSlice.Slice
