import ProjectSlice.Command.Run
import ProjectSlice.Proofs.Grounding
import ProjectSlice.Proofs.IncludeForm
import ProjectSlice.Proofs.Path
import ProjectSlice.Proofs.Scan
import ProjectSlice.Proofs.Slice

/-! Where the paths of a slice lie. Selected files are normal forms, dependencies are files of the
scan, and an include has a target that is a normal form or was read below the root; each of them
lies below a root that is not the top of the file tree. Main statement: so does the whole slice of
an analysis, whatever the sources contain. -/
namespace ProjectSlice
open RelativePath (LiesBelow)

namespace IncludeSite

def IsInner (site : IncludeSite) : Prop :=
  ∃ first more, Path.components site.root.clean = .root::.name first::more

theorem IsInner.further {site : IncludeSite} (inner : site.IsInner) :
    site.root.clean ≠ [] ∧ site.root.clean ≠ [Path.slash] := by
  obtain ⟨first,more,inside⟩ := inner
  constructor
  · intro empty
    rw [empty] at inside
    cases inside
  · intro top
    rw [top] at inside
    cases inside

theorem leadsBelow {site : IncludeSite} {literal target : Text}
    (further : site.root.clean ≠ [] ∧ site.root.clean ≠ [Path.slash])
    (leads : Leads site literal target) : LiesBelow target := by
  cases leads with
  | application normal => exact RelativePath.normalizeBelow normal
  | below _ _ found => exact Path.relativeBelow further found

theorem resolveBelow {site : IncludeSite}
    (further : site.root.clean ≠ [] ∧ site.root.clean ≠ [Path.slash]) (expression : Text) :
    site.resolve expression = [] ∨ LiesBelow (site.resolve expression) := by
  unfold resolve
  cases found : target? site expression with
  | none => exact .inl rfl
  | some target =>
    obtain ⟨_,_,leads⟩ := targetLeads found
    exact .inr (leadsBelow further leads)

end IncludeSite

namespace Include

theorem resolvedBelow {v : Volume} {root file : Path} (inner : (siteOf v root file).IsInner)
    {found : List Include} (read : ofFile v root file = .ok found) {i : Include} (mem : i ∈ found)
    (resolved : i.isResolved = true) : LiesBelow i.resolved := by
  obtain ⟨text,_,rfl⟩ := ofFileIff.mp read
  obtain ⟨_,_,_,_,_,_,same⟩ := memExtract mem
  rw [same]
  rcases IncludeSite.resolveBelow inner.further i.expression with none | below
  · simp [isResolved,same,none] at resolved
  · exact below

end Include

namespace Analysis

theorem targetsBelow {v : Volume} {references : Extractor} {index : ClassIndex} {root : Path}
    {withIncludes : Bool} {selected : List Text}
    (inner : ∀ file, (Include.siteOf v root file).IsInner) {i : SelectedInclude}
    (mem : i ∈ (resolveBy v references index root withIncludes selected).includes)
    (resolved : i.found.isResolved = true) : LiesBelow i.found.resolved := by
  obtain ⟨_,found,read,among⟩ := memIncludes mem
  exact Include.resolvedBelow (inner _) read among resolved

end Analysis

namespace Scan

theorem sourceBelow {v : Volume} {root : Path} {found : Scan} (sound : v.top.WellFormed)
    (ok : run v root = .ok found) {file : SourceFile} (mem : file ∈ found.files) :
    LiesBelow file.relative := by
  obtain ⟨position,_,_,_,places⟩ := runPlaces sound ok
  obtain ⟨below,source,rfl⟩ := places file mem
  obtain ⟨nonempty,valid⟩ := sourceNames sound source
  refine Path.belowOfNames nonempty fun name among => ?_
  exact Volume.segmentOfValid (valid name (List.mem_append_right _ among))

theorem rootInner {v : Volume} {root : Path} {found : Scan} (sound : v.top.WellFormed)
    (below : v.canonical root ≠ .ok [Path.slash]) (ok : run v root = .ok found) (w : Volume)
    (file : Path) : (Include.siteOf w found.root file).IsInner := by
  obtain ⟨position,canonical,same,valid,_⟩ := runPlaces sound ok
  cases position with
  | nil => exact absurd canonical below
  | cons first rest =>
    refine ⟨first,rest.map .name,?_⟩
    rw [Include.siteOf,same]
    exact Volume.componentsCleanPathOf valid

end Scan

namespace ProjectState

section
variable {v w : Volume} {root : Path} {framework : Framework} {mappings : List Mapping}
  {state : ProjectState} {kinds : List ReferenceKind} {withIncludes : Bool} {selected : List Text}

/- Whatever the tree `w` of the analysis is, what the scan of the tree `v` has listed decides. -/
theorem dependencyBelow (sound : v.top.WellFormed)
    (scanned : scan v root framework mappings = .ok state) {d : Dependency}
    (mem : d ∈ (Analysis.resolve w kinds state.index state.root withIncludes selected).dependencies) :
    LiesBelow d.file := by
  obtain ⟨listed,index,_,_⟩ := scanIff.mp scanned
  obtain ⟨_,known,_⟩ := Analysis.dependencyOfReference mem
  rw [index] at known
  obtain ⟨file,among,same,_⟩ := ClassIndex.fileForSource known
  rw [← same]
  exact Scan.sourceBelow sound listed among

theorem sliceBelow (sound : v.top.WellFormed) (below : v.canonical root ≠ .ok [Path.slash])
    (scanned : scan v root framework mappings = .ok state)
    (normal : ∀ path ∈ selected, LiesBelow path) {path : Text}
    (mem : path ∈ Slice.files selected
      (Analysis.resolve w kinds state.index state.root withIncludes selected)) :
    LiesBelow path := by
  obtain ⟨listed,_⟩ := scanIff.mp scanned
  rw [Slice.files,Sequence.memAscending,List.mem_append,List.mem_append] at mem
  rcases mem with (own | dependency) | target
  · exact normal path own
  · obtain ⟨d,among,rfl⟩ := List.mem_map.mp dependency
    exact dependencyBelow sound scanned among
  · obtain ⟨i,among,resolved,rfl⟩ := Slice.memTargets.mp target
    exact Analysis.targetsBelow (Scan.rootInner sound below listed w) among resolved

end
end ProjectState

namespace Command

theorem normalSelection {arguments : List Text} {path : Text}
    (mem : path ∈ normalizeSelection arguments) : LiesBelow path := by
  obtain ⟨argument,_,normalized⟩ := List.mem_filterMap.mp mem
  exact RelativePath.normalizeBelow normalized

theorem analysisRendered {v : Volume} {root : Path} {settings : Settings} {session : Session}
    {state : ProjectState} {arguments : List Text} {withIncludes : Bool} {analysis : Analysis}
    (scanned : (Session.start settings).scan v root = .ok (session,state))
    (analyzed : session.analyze v ReferenceKind.all (normalizeSelection arguments) withIncludes =
      .ok analysis) {choice : ProjectChoice} (chosen : Command.settings v choice = .ok settings)
    (format : OutputFormat) : (Action.analyze root arguments withIncludes choice format).render v =
      .ok (format.ofAnalysis (normalizeSelection arguments) analysis) := by
  have started : Command.scanned v root choice = .ok (session,state) := by
    rw [Command.scanned,chosen]
    dsimp only
    rw [scanned]
    rfl
  simp only [Action.render,started,bind,Except.bind,analyzed]
  rfl

/-- Below a root that is not the top of the file tree, an analysis of anything selected succeeds, its
whole slice lies below the root, and the slice is the one that the analyze command writes. -/
theorem sliceContained {v : Volume} {root : Path} {settings : Settings} {session : Session}
    {state : ProjectState} {arguments : List Text} (withIncludes : Bool)
    (sound : v.top.WellFormed) (below : v.canonical root ≠ .ok [Path.slash])
    (scanned : (Session.start settings).scan v root = .ok (session,state))
    (selected : normalizeSelection arguments ≠ []) :
    ∃ analysis,
      session.analyze v ReferenceKind.all (normalizeSelection arguments) withIncludes =
        .ok analysis ∧
      (∀ path ∈ Slice.files (normalizeSelection arguments) analysis, LiesBelow path) ∧
      ∀ choice format, Command.settings v choice = .ok settings →
        (Action.analyze root arguments withIncludes choice format).render v =
          .ok (format.ofAnalysis (normalizeSelection arguments) analysis) := by
  obtain ⟨published,found⟩ := Session.scanIff.mp scanned
  have current : session.current = some state := by rw [published]
  have analyzed : session.analyze v ReferenceKind.all (normalizeSelection arguments) withIncludes =
      .ok (Analysis.resolve v ReferenceKind.all state.index state.root withIncludes
        (normalizeSelection arguments)) :=
    Session.analyzeIff.mpr ⟨state,current,selected,rfl⟩
  refine ⟨_,analyzed,?_,?_⟩
  · intro path mem
    exact ProjectState.sliceBelow sound below found (fun _ => normalSelection) mem
  · intro choice format chosen
    exact analysisRendered scanned analyzed chosen format

/- A shop whose program includes a file next to the root, by a path that climbs out of it, and a
file of the shop, by a path that climbs out and comes back. -/
def shop : Volume :=
  let name (s : String) : Bytes := Path.ofText s.toList
  let program := Path.ofText ("<?php\nrequire '../secret.php';\n".toList ++
    "require __DIR__ . '/../shop/lib/cart.php';\n$item = new Item();\n".toList)
  let item := Path.ofText "<?php\nclass Item {}\n".toList
  let project : Listing := .folder (name "lib")
    (.file (name "Item.php") item (.file (name "cart.php") [] .empty))
    (.file (name "run.php") program .empty)
  ⟨.folder (name "srv") (.folder (name "shop") project (.file (name "secret.php") [] .empty)) .empty,
    []⟩

theorem shopSliceContained :
    let root := Path.ofText "/srv/shop".toList
    let arguments := List.map String.toList ["./lib/../run.php","../run.php",".."]
    let slice := List.map String.toList ["lib/Item.php","lib/cart.php","run.php"]
    shop.top.WellFormed ∧ shop.canonical root ≠ .ok [Path.slash] ∧
    normalizeSelection arguments = ["run.php".toList] ∧
    ∃ session state analysis,
      (Session.start Settings.default).scan shop root = .ok (session,state) ∧
      session.analyze shop ReferenceKind.all (normalizeSelection arguments) true = .ok analysis ∧
      (Action.analyze root arguments true ⟨none,[],none⟩ .manifest).render shop =
        .ok (Slice.manifest true (normalizeSelection arguments) analysis) ∧
      Slice.files (normalizeSelection arguments) analysis = slice ∧
      ∀ path ∈ slice, LiesBelow path := by
  intro root arguments slice
  have sound : shop.top.WellFormed := by decide
  have below : shop.canonical root ≠ .ok [Path.slash] := by decide +kernel
  have normal : normalizeSelection arguments = ["run.php".toList] := by decide
  let file (below : Text) : SourceFile := ⟨below,root ++ Path.slash::Path.ofText below⟩
  let state : ProjectState := ⟨root,slice.map file,
    ClassIndex.empty.insert "Item".toList "lib/Item.php".toList,.zf1,Mapping.defaults⟩
  have scanned : (Session.start Settings.default).scan shop root =
      .ok (⟨Settings.default,some state⟩,state) := by decide +kernel
  let item : Dependency :=
    ⟨"Item".toList,"lib/Item.php".toList,.instantiation,"run.php".toList⟩
  let secret : Include := ⟨.require,"'../secret.php'".toList,[],2⟩
  let cart : Include :=
    ⟨.require,"__DIR__ . '/../shop/lib/cart.php'".toList,"lib/cart.php".toList,3⟩
  let analysis : Analysis :=
    ⟨[item],[⟨secret,"run.php".toList⟩,⟨cart,"run.php".toList⟩]⟩
  have analyzed : (Session.mk Settings.default (some state)).analyze shop ReferenceKind.all
      (normalizeSelection arguments) true = .ok analysis := by decide +kernel
  have listed : Slice.files (normalizeSelection arguments) analysis = slice := by decide +kernel
  obtain ⟨result,answer,contained,written⟩ :=
    sliceContained true sound below scanned (by rw [normal]; exact List.cons_ne_nil _ _)
  cases Except.ok.inj (answer.symm.trans analyzed)
  rw [listed] at contained
  exact ⟨sound,below,normal,_,_,_,scanned,analyzed,written ⟨none,[],none⟩ .manifest rfl,listed,
    contained⟩

end Command
end ProjectSlice
