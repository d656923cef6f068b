import ProjectSlice.Proofs.Dependency
import ProjectSlice.Proofs.Include

/-! Includes beside dependencies. One pass over a selection records both, and it leaves a file as
soon as its references cannot be read. Includes are read from the file once more, which fails for the
same files. Main statement: asking for includes leaves the dependencies as they are and answers the
includes of every selected file that can be read, whatever else has been found. -/
namespace ProjectSlice

theorem Sequence.flatMapFilter {α β : Type} {p : α → Bool} {f : α → List β} {s : List α}
    (passed : ∀ x ∈ s, p x = false → f x = []) : (s.filter p).flatMap f = s.flatMap f := by
  induction s with
  | nil => rfl
  | cons x s ih =>
    obtain ⟨first,others⟩ := List.forall_mem_cons.mp passed
    rw [List.filter_cons,List.flatMap_cons]
    split
    · rw [List.flatMap_cons,ih others]
    · rename_i fails
      rw [first (Bool.eq_false_iff.mpr fails),ih others]
      rfl

def Extractor.reading (v : Volume) (find : Text → List Reference) : Extractor := fun file =>
  (SourceText.read v file).map find

namespace Analysis

def includesAt (v : Volume) (root : Path) (source : Text) : List SelectedInclude :=
  match Include.ofFile v root (root.join (Path.ofText source)) with
  | .error _ => []
  | .ok found => found.map fun i => ⟨i,source⟩

section
variable (v : Volume) (root : Path) (find : Text → List Reference)

theorem failsTogether (file : Path) :
    (Extractor.reading v find file).isOk = (SourceText.read v file).isOk ∧
    (Include.ofFile v root file).isOk = (SourceText.read v file).isOk := by
  unfold Extractor.reading Include.ofFile
  cases SourceText.read v file with
  | error failure => exact ⟨rfl,rfl⟩
  | ok text => exact ⟨rfl,rfl⟩

theorem includesInReading (source : Text) :
    includesIn v (Extractor.reading v find) root true source = includesAt v root source := by
  unfold includesIn includesAt Extractor.reading Include.ofFile
  cases SourceText.read v (root.join (Path.ofText source)) with
  | error failure => rfl
  | ok text => rfl

theorem unreadWithout (references : Extractor) (source : Text) :
    includesIn v references root false source = [] := by
  unfold includesIn
  split
  · rfl
  · exact if_neg Bool.false_ne_true

end

/-- Whether includes are asked for or not, an extractor leads to the same dependencies, and includes
come only when they are asked for. With an extractor that reads the files, they are those of the
readable files of the selection, file by file as often as it is selected, and no file fails to be
read for its includes that was read for its references. -/
theorem includesApart (v : Volume) (index : ClassIndex) (root : Path) (selected : List Text) :
    (∀ references : Extractor,
      (resolveBy v references index root true selected).dependencies =
        (resolveBy v references index root false selected).dependencies ∧
      (resolveBy v references index root false selected).includes = []) ∧
    ∀ find : Text → List Reference,
      (resolveBy v (Extractor.reading v find) index root true selected).includes =
        (selected.filter fun source =>
          (SourceText.read v (root.join (Path.ofText source))).isOk).flatMap
            (includesAt v root) ∧
      ∀ file, (Extractor.reading v find file).isOk = (SourceText.read v file).isOk ∧
        (Include.ofFile v root file).isOk = (SourceText.read v file).isOk := by
  refine ⟨fun references => ⟨?_,?_⟩,fun find => ⟨?_,failsTogether v root find⟩⟩
  · rw [dependenciesOfTrail,dependenciesOfTrail]
  · rw [includesOfSelection,List.flatMap_eq_nil_iff]
    exact fun source _ => unreadWithout v root references source
  · have unread : ∀ source ∈ selected,
        (SourceText.read v (root.join (Path.ofText source))).isOk = false →
        includesAt v root source = [] := by
      intro source _ fails
      rw [← (failsTogether v root find _).2] at fails
      unfold includesAt
      split
      · rfl
      · rename_i read
        rw [read] at fails
        contradiction
    rw [includesOfSelection,Sequence.flatMapFilter unread]
    exact List.flatMap_congr fun source _ => includesInReading v root find source

end Analysis
end ProjectSlice
