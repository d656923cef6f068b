import ProjectSlice.Proofs.Include
import ProjectSlice.Proofs.Session
import ProjectSlice.Proofs.Slice

/-! Manifests read back. Expressions come from one line each and the sources of includes are files
of the slice, so a comment breaks off nothing that the files of the slice do not break off
themselves. Main statement: the lines of a manifest that are no comments are the files of its slice
exactly if every file of the slice is one line and none looks like a comment. -/
namespace ProjectSlice.Slice
open Sequence

/-- The lines of a manifest, as a reader takes them who passes over comments. -/
def filesIn (manifest : Text) : List Text :=
  (chunks '\n' manifest).filter fun line => line.head? ≠ some '#'

def Listable (path : Text) : Prop := '\n' ∉ path ∧ path.head? ≠ some '#'

theorem listableInside {manifest line : Text} (mem : line ∈ filesIn manifest) : Listable line := by
  obtain ⟨piece,kept⟩ := List.mem_filter.mp mem
  exact ⟨chunkFree piece,of_decide_eq_true kept⟩

theorem commentsMarked (analysis : Analysis) :
    ∀ line ∈ comments analysis, line.head? = some '#' := by
  unfold comments
  split
  · exact nofun
  · rw [List.forall_mem_cons]
    refine ⟨rfl,fun line mem => ?_⟩
    obtain ⟨i,_,rfl⟩ := List.mem_map.mp mem
    rfl

theorem digitsOneLine (n : Nat) : '\n' ∉ Text.decimal n := by
  intro mem
  have digit := List.all_eq_true.mp (Text.decimalDigits n) '\n' mem
  exact absurd digit (by decide)

theorem keywordOneLine (keyword : IncludeKeyword) : '\n' ∉ keyword.word := by
  cases keyword <;> decide

theorem commentOneLine {i : SelectedInclude} (source : '\n' ∉ i.source)
    (expression : '\n' ∉ i.found.expression) : '\n' ∉ comment i := by
  unfold comment
  simp [source,expression,digitsOneLine,keywordOneLine]

theorem commentsOneLine {analysis : Analysis}
    (single : ∀ i ∈ analysis.includes, '\n' ∉ i.source ∧ '\n' ∉ i.found.expression) :
    ∀ line ∈ comments analysis, '\n' ∉ line := by
  unfold comments
  split
  · exact nofun
  · rw [List.forall_mem_cons]
    refine ⟨by decide,fun line mem => ?_⟩
    obtain ⟨i,among,rfl⟩ := List.mem_map.mp mem
    obtain ⟨source,expression⟩ := single i (List.mem_of_mem_filter among)
    exact commentOneLine source expression

theorem filesInManifest {selected : List Text} {analysis : Analysis}
    (listable : ∀ file ∈ files selected analysis, Listable file)
    (single : ∀ line ∈ comments analysis, '\n' ∉ line) (withComments : Bool) :
    filesIn (manifest withComments selected analysis) = files selected analysis := by
  have remarks : ∀ line ∈ (if withComments then comments analysis else []),
      '\n' ∉ line ∧ line.head? = some '#' := by
    cases withComments with
    | false => exact nofun
    | true => exact fun line mem => ⟨single line mem,commentsMarked analysis line mem⟩
  unfold filesIn manifest
  dsimp only
  rw [chunksClosed,List.filter_append,List.filter_eq_self.mpr,List.filter_eq_nil_iff.mpr,
    List.append_nil]
  · intro line mem
    simp [(remarks line mem).2]
  · exact fun line mem => decide_eq_true (listable line mem).2
  · intro line mem
    rcases List.mem_append.mp mem with file | remark
    · exact (listable line file).1
    · exact (remarks line remark).1

section
variable {v : Volume} {kinds : List ReferenceKind} {index : ClassIndex} {root : Path}
  {withIncludes : Bool} {selected : List Text}

theorem includeOfSelected {i : SelectedInclude}
    (mem : i ∈ (Analysis.resolve v kinds index root withIncludes selected).includes) :
    i.source ∈ selected ∧ '\n' ∉ i.found.expression := by
  obtain ⟨own,found,read,among⟩ := Analysis.memIncludes mem
  obtain ⟨text,_,rfl⟩ := Include.ofFileIff.mp read
  exact ⟨own,Include.expressionOneLine among⟩

theorem selectedInSlice (analysis : Analysis) : selected ⊆ files selected analysis := by
  intro path mem
  rw [files,memAscending]
  exact List.mem_append_left _ (List.mem_append_left _ mem)

end

/-- Whatever the sources and the includes contain, a manifest is read back, with its comments and
without them, exactly if no file of the slice breaks its line or begins with the mark of comments;
and the slice is in ascending byte order. -/
theorem manifestReadBack (v : Volume) (kinds : List ReferenceKind) (index : ClassIndex)
    (root : Path) (withIncludes : Bool) (selected : List Text) :
    let analysis := Analysis.resolve v kinds index root withIncludes selected
    let slice := files selected analysis
    (∀ withComments,
      filesIn (manifest withComments selected analysis) = slice ↔ ∀ file ∈ slice, Listable file) ∧
    slice.Pairwise fun a b => Utf8.encode a < Utf8.encode b := by
  intro analysis slice
  refine ⟨fun withComments => ⟨?_,?_⟩,(ofSelectionAscending selected).imp Utf8.encodeBelow⟩
  · intro readBack file mem
    rw [← readBack] at mem
    exact listableInside mem
  · intro listable
    refine filesInManifest listable (commentsOneLine fun i mem => ?_) withComments
    obtain ⟨own,expression⟩ := includeOfSelected mem
    exact ⟨(listable i.source (selectedInSlice analysis own)).1,expression⟩

/- A project with a file whose name begins as a comment does, and a file whose name has two lines
and whose include has no target. -/
def attic : Volume :=
  ⟨.file (Path.ofText "#old.php".toList) []
    (.file (Path.ofText "a\nb.php".toList) (Path.ofText "<?php\nrequire $x;\n".toList) .empty),[]⟩

theorem atticMisread :
    let selected := ["#old.php".toList,"a\nb.php".toList]
    ∃ session state analysis,
      (Session.start Settings.default).scan attic (Path.ofText "/".toList) = .ok (session,state) ∧
      state.relativePaths = selected ∧
      session.analyze attic ReferenceKind.all selected true = .ok analysis ∧
      files selected analysis = selected ∧
      filesIn (manifest true selected analysis) =
        ["a".toList,"b.php".toList,"b.php:2 require $x".toList] ∧
      filesIn (manifest false selected analysis) = ["a".toList,"b.php".toList] := by
  intro selected
  let file (below : Text) : SourceFile := ⟨below,Path.ofText ('/'::below)⟩
  let state : ProjectState :=
    ⟨Path.ofText "/".toList,selected.map file,ClassIndex.empty,.zf1,Mapping.defaults⟩
  let analysis : Analysis :=
    ⟨[],[⟨⟨.require,"$x".toList,[],2⟩,"a\nb.php".toList⟩]⟩
  have scanned : (Session.start Settings.default).scan attic (Path.ofText "/".toList) =
      .ok (⟨Settings.default,some state⟩,state) := by decide +kernel
  have analyzed : (Session.mk Settings.default (some state)).analyze attic ReferenceKind.all
      selected true = .ok analysis := by decide +kernel
  exact ⟨_,state,analysis,scanned,rfl,analyzed,by decide +kernel,by decide +kernel,
    by decide +kernel⟩

end ProjectSlice.Slice
