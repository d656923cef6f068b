import Mathlib.Data.List.Basic
import ProjectSlice.FileTree.Lookup
import ProjectSlice.Proofs.FileTree.Listing
import ProjectSlice.Proofs.Path

/-! What a walk through a file tree ends at. Main statements: the position that a walk answers is
where the file or directory stands, and the path of a position has its names as components. -/
namespace ProjectSlice

def Found.StandsIn (top : Listing) : Found → Prop
  | .file position content => top.at? position = some (.file content)
  | .folder position inside => top.at? position = some (.folder inside)
  | .absent position => top.at? position = none

namespace Volume
open ProjectSlice.Path (slash dot)

theorem walkStepsStands {top : Listing} {purpose : Purpose}
    {follow : Position → List Bytes → Except Failure Found}
    (followed : ∀ here steps found, follow here steps = .ok found → found.StandsIn top)
    {here : Position} {steps : List Bytes} {found : Found}
    (ok : walkSteps top purpose follow here steps = .ok found) : found.StandsIn top := by
  induction steps generalizing here with
  | nil =>
    rw [walkSteps] at ok
    split at ok
    · rename_i there
      cases ok
      exact there
    · contradiction
  | cons step rest ih =>
    rw [walkSteps] at ok
    split at ok
    · exact ih ok
    · split at ok
      · exact ih ok
      · split at ok
        · contradiction
        · split at ok
          · contradiction
          · split at ok
            · rename_i missing
              split at ok
              · cases ok
                exact missing
              · contradiction
            · rename_i there
              split at ok
              · cases ok
                exact there
              · contradiction
            · exact ih ok
            · exact followed _ _ _ ok

theorem walkStands {top : Listing} {purpose : Purpose} {links : Nat} {here : Position}
    {steps : List Bytes} {found : Found} (ok : walk top purpose links here steps = .ok found) :
    found.StandsIn top := by
  induction links generalizing here steps found with
  | zero => exact walkStepsStands (fun _ _ _ refused => by cases refused) ok
  | succ links ih => exact walkStepsStands (fun _ _ _ => ih) ok

/- A lookup that succeeds is a walk over the steps of its path. -/
theorem lookupWalked {v : Volume} {purpose : Purpose} {p : Path} {found : Found}
    (ok : v.lookup purpose p = .ok found) :
    walk v.top purpose linkLimit (if p.isAbsolute then [] else v.workFolder) (steps p) =
      .ok found := by
  unfold lookup at ok
  split at ok
  · contradiction
  · split at ok
    · contradiction
    · split at ok
      · contradiction
      · exact ok

theorem lookupStands {v : Volume} {purpose : Purpose} {p : Path} {found : Found}
    (ok : v.lookup purpose p = .ok found) : found.StandsIn v.top :=
  walkStands (lookupWalked ok)

theorem isFileIff {v : Volume} {p : Path} :
    v.isFile p = true ↔ ∃ position content, v.find p = .ok (.file position content) ∧
      v.top.at? position = some (.file content) := by
  unfold isFile
  constructor
  · intro file
    split at file
    · rename_i position content found
      exact ⟨position,content,found,lookupStands found⟩
    · contradiction
  · rintro ⟨position,content,found,_⟩
    rw [found]

theorem segmentOfValid {name : Bytes} (valid : Listing.ValidName name) : Path.IsSegment name :=
  ⟨valid.1,valid.2.1,valid.2.2.1,valid.2.2.2.1⟩

theorem componentsPathOf {position : Position}
    (valid : ∀ name ∈ position, Listing.ValidName name) :
    Path.components (pathOf position) = .root::position.map .name := by
  have written : pathOf position = Path.ofComponents (.root::position.map .name) := by
    rw [Path.ofComponents,List.map_map,pathOf]
    exact congrArg (fun names => slash::[slash].intercalate names) (List.map_id _).symm
  rw [written]
  exact Path.componentsOfRooted
    (Path.innerOfNames fun name mem => segmentOfValid (valid name mem))

theorem componentsCleanPathOf {position : Position}
    (valid : ∀ name ∈ position, Listing.ValidName name) :
    Path.components (pathOf position).clean = .root::position.map .name := by
  rw [Path.componentsClean,componentsPathOf valid,List.foldl_cons,Path.foldNames]
  simp [Path.cleanStep]

end Volume
end ProjectSlice
