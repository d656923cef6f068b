import Mathlib.Data.List.Sort
import ProjectSlice.Proofs.ClassIndex
import ProjectSlice.Proofs.FileTree.Shape
import ProjectSlice.Proofs.Scan

/-! What a scan reads. The files are found by names, kinds of entries and links alone; a file that
its path names is not opened, and of any other file a hundred lines are read. Main statement: two
trees of one shape in which these lines agree have the same scan. -/
namespace ProjectSlice

namespace Volume

def firstLines (v : Volume) (most : Nat) (p : Path) : Except Failure (List Bytes) :=
  (v.read p).map fun content => (Sequence.chunks 10 content).take most

end Volume

namespace Scan

section
variable {v w : Volume} (shape : v.SameShape w)
include shape

theorem sourceAlike (root below : Position) : IsSource v root below ↔ IsSource w root below := by
  have file := Entry.fileOfKind (shape.entries (root ++ below))
  have link := Entry.linkOfKind (shape.entries (root ++ below))
  have ends : EndsAtFile v (Volume.pathOf (root ++ below)) ↔
      EndsAtFile w (Volume.pathOf (root ++ below)) := by
    unfold EndsAtFile
    rw [← Volume.isFileIff,← Volume.isFileIff,Volume.isFileAlike shape]
  constructor
  · rintro ⟨folders,named,entry⟩
    exact ⟨folders,named,by simpa only [file,link,ends] using entry⟩
  · rintro ⟨folders,named,entry⟩
    exact ⟨folders,named,by simpa only [file,link,ends] using entry⟩

/- Both walks are strictly ascending and take the same positions, so they are one. -/
theorem runAlike (soundV : v.top.WellFormed) (soundW : w.top.WellFormed) (root : Path) :
    run v root = run w root := by
  have alike := Volume.lookupAlike shape .resolving root
  generalize first : v.lookup .resolving root = a at alike
  generalize second : w.lookup .resolving root = b at alike
  cases alike with
  | refused failure | file position content other | absent position =>
    simp only [run,Volume.resolve,first,second]
  | folder position inside other =>
    obtain ⟨_,okV⟩ : ∃ found, run v root = .ok found := ⟨_,by rw [run,Volume.resolve,first]⟩
    obtain ⟨_,okW⟩ : ∃ found, run w root = .ok found := ⟨_,by rw [run,Volume.resolve,second]⟩
    obtain ⟨_,_,positions,there,rfl,ordered,listed⟩ := runPositions soundV okV
    cases first.symm.trans there
    obtain ⟨_,_,positions',there,rfl,ordered',listed'⟩ := runPositions soundW okW
    cases second.symm.trans there
    have same : positions = positions' := by
      refine ordered.eq_of_mem_iff ordered' fun below => ?_
      rw [listed,listed',sourceAlike shape]
    rw [okV,okW,same]

end
end Scan

namespace SourceText

theorem declaredOfLines (v : Volume) (p : Path) :
    declaredClass? v p = match v.firstLines 100 p with
      | .ok lines => Declaration.ofLines? (lines.map headLine)
      | .error _ => none := by
  have some : declarationLines ≠ 0 := by decide
  unfold declaredClass? head
  rw [if_neg some]
  unfold bytes open? Volume.firstLines Volume.read
  rcases v.find p with failure | (⟨position,content⟩ | ⟨position,inside⟩ | position) <;> rfl

end SourceText

namespace ProjectState

/-- Two trees of one shape have the same scan if every source file that its path does not name has
the same first hundred lines in both. -/
theorem scanReadsHeads {v w : Volume} {root : Path} {framework : Framework}
    {mappings : List Mapping} (soundV : v.top.WellFormed) (soundW : w.top.WellFormed)
    (shape : v.SameShape w)
    (heads : ∀ found, Scan.run v root = .ok found → ∀ file ∈ found.files,
      framework.nameOf? (Mapping.orDefaults mappings) file.relative = none →
      v.firstLines 100 file.absolute = w.firstLines 100 file.absolute) :
    scan v root framework mappings = scan w root framework mappings := by
  unfold scan
  dsimp only
  rw [← Scan.runAlike shape soundV soundW root]
  cases listed : Scan.run v root with
  | error failure => rfl
  | ok found =>
    have same : ∀ file ∈ found.files,
        file.className? v framework (Mapping.orDefaults mappings) =
          file.className? w framework (Mapping.orDefaults mappings) := by
      intro file mem
      unfold SourceFile.className?
      cases named : framework.nameOf? (Mapping.orDefaults mappings) file.relative with
      | some name => rfl
      | none =>
        rw [SourceText.declaredOfLines,SourceText.declaredOfLines,heads found listed file mem named]
    dsimp only
    rw [ClassIndex.buildAlike same]

/- A file that its path names, a file that it does not name, and a link to a text elsewhere. -/
def notebook (named unnamed elsewhere : Bytes) : Volume :=
  let entry (s : String) : Bytes := Path.ofText s.toList
  let models := Listing.file (entry "Car.php") named .empty
  let lib := Listing.file (entry "late.php") unnamed
    (.link (entry "link.php") (entry "../notes.txt") .empty)
  ⟨.folder (entry "application") (.folder (entry "models") models .empty)
    (.folder (entry "lib") lib (.file (entry "notes.txt") elsewhere .empty)),[]⟩

/- The class of the named file, a class behind the hundredth line, and a byte there that is no
character. -/
theorem lateLinesUnread :
    let hundred := List.replicate 100 10
    let before := notebook [] hundred hundred
    let after := notebook (Path.ofText "class Truck {}\n".toList)
      (hundred ++ Path.ofText "class Late {}\n".toList) (hundred ++ [255])
    let root := Path.ofText "/".toList
    before.top.WellFormed ∧ after.top.WellFormed ∧ before.SameShape after ∧ before ≠ after ∧
    scan before root .zf1 [] = scan after root .zf1 [] ∧
    ∃ state, scan before root .zf1 [] = .ok state ∧ state.relativePaths =
      List.map String.toList ["application/models/Car.php","lib/late.php","lib/link.php"] := by
  intro hundred before after root
  have soundBefore : before.top.WellFormed := by decide
  have soundAfter : after.top.WellFormed := by decide
  have shape : before.SameShape after := Volume.shapeOfBlank rfl (by decide +kernel)
  let paths := List.map String.toList ["application/models/Car.php","lib/late.php","lib/link.php"]
  let file (below : Text) : SourceFile := ⟨below,Path.ofText ('/'::below)⟩
  have listed : Scan.run before root = .ok ⟨root,paths.map file⟩ := by decide +kernel
  have heads : ∀ source ∈ paths.map file,
      Framework.zf1.nameOf? (Mapping.orDefaults []) source.relative = none →
      before.firstLines 100 source.absolute = after.firstLines 100 source.absolute := by
    decide +kernel
  have same : scan before root .zf1 [] = scan after root .zf1 [] := by
    refine scanReadsHeads soundBefore soundAfter shape fun found ok => ?_
    cases ok.symm.trans listed
    exact heads
  let index := ClassIndex.build before .zf1 Mapping.defaults (paths.map file)
  let state : ProjectState := ⟨root,paths.map file,index,.zf1,Mapping.defaults⟩
  have found : scan before root .zf1 [] = .ok state := scanIff.mpr ⟨listed,rfl,rfl,rfl⟩
  exact ⟨soundBefore,soundAfter,shape,by decide +kernel,same,state,found,rfl⟩

end ProjectState
end ProjectSlice
