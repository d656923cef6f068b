import ProjectSlice.Proofs.Containment
import ProjectSlice.Proofs.Handle

/-! Two listings of a file's includes. An analysis reads a listed file at its place below the root;
the listing of a single file reads it where its path without links leads. Main statement: both list
the same statements, and they name the same targets if the two places lie in one directory, as they
do for every file that is no link. -/
namespace ProjectSlice

theorem SourceText.readIff {v : Volume} {p : Path} {text : Text} :
    read v p = .ok text ↔ ∃ position content,
      v.find p = .ok (.file position content) ∧ Utf8.decodeLossy content = text := by
  unfold read bytes open?
  rcases v.find p with failure | (⟨position,content⟩ | ⟨position,inside⟩ | position) <;>
    simp [Except.map]

/-- The path of a listed file below the root as the root was given. -/
def SourceFile.handle (root : Path) (file : SourceFile) : Path :=
  root ++ Path.slash::Path.ofText file.relative

namespace Scan

section
variable {v : Volume} {root : Path} {found : Scan} {file : SourceFile} {place : Position}
  {content : Bytes} (sound : v.top.WellFormed) (ok : run v root = .ok found)
  (mem : file ∈ found.files) (texts : file.HasTextNames found.root)
  (reached : v.find file.absolute = .ok (.file place content))
include sound ok mem texts reached

theorem canonicalRegular {own : Position} {inside : Bytes} (same : file.absolute = Volume.pathOf own)
    (entry : v.top.at? own = some (.file inside)) :
    v.canonical (file.handle root) = .ok file.absolute := by
  obtain ⟨position,below,_,there,_,further,valid,absolute,written⟩ := textPlace sound ok mem texts
  have nonempty : position ++ below ≠ [] := fun empty => further (List.append_eq_nil_iff.mp empty).2
  have segments : ∀ name ∈ position ++ below, Path.IsSegment name :=
    fun name among => Volume.segmentOfValid (valid name among)
  rw [absolute] at same reached ⊢
  cases Volume.positionOfFile sound nonempty segments same entry
  have long := (Volume.findFile nonempty valid entry).2
  have fits : Volume.Fits (position ++ below) :=
    Classical.byContradiction fun notFits => nomatch reached.symm.trans (long notFits)
  rw [SourceFile.handle,written]
  exact Volume.canonicalOfFile further valid there entry fits

theorem canonicalReached {real : Path} (canonical : v.canonical (file.handle root) = .ok real) :
    v.find real = .ok (.file place content) := by
  obtain ⟨position,below,_,there,_,further,valid,absolute,written⟩ := textPlace sound ok mem texts
  rw [absolute] at reached
  rw [SourceFile.handle,written] at canonical
  exact Volume.canonicalBelow further valid sound there canonical reached

end

theorem canonicalRoot {v : Volume} {root : Path} {found : Scan} (sound : v.top.WellFormed)
    (ok : run v root = .ok found) : v.canonical root = .ok found.root := by
  obtain ⟨position,canonical,same,_,_⟩ := runPlaces sound ok
  rw [canonical,same]

end Scan

namespace Include

theorem siteOfParent {file other : Path} (same : file.parent? = other.parent?) (v : Volume)
    (root : Path) : siteOf v root file = siteOf v root other := by
  rw [siteOf,siteOf,same]

end Include

namespace Analysis

theorem includesOfFile {v : Volume} {root : Path} {source text : Text}
    (read : SourceText.read v (root.join (Path.ofText source)) = .ok text)
    (kinds : List ReferenceKind) (index : ClassIndex) :
    (resolve v kinds index root true [source]).includes =
      (Include.extract (Include.siteOf v root (root.join (Path.ofText source))) text).map
        fun i => ⟨i,source⟩ := by
  have found : Reference.ofFile v kinds (root.join (Path.ofText source)) =
      .ok (Reference.extract kinds text) := by
    rw [Reference.ofFile,read]
    rfl
  rw [resolve,includesOfSelection,List.flatMap_singleton,includesIn,found,if_pos rfl,
    Include.ofFileIff.mpr ⟨text,read,rfl⟩]

end Analysis

namespace Command

theorem includesRendered {v : Volume} {root file base real : Path} {text : Text}
    (there : v.canonical root = .ok base) (led : v.canonical file = .ok real)
    (read : SourceText.read v real = .ok text) :
    (Action.includes file root).render v = .ok ((Json.array
      ((Include.extract (Include.siteOf v base real) text).map Include.toJson)).write .pretty) := by
  have found : Include.ofFile v base real = .ok (Include.extract (Include.siteOf v base real) text) :=
    Include.ofFileIff.mpr ⟨text,read,rfl⟩
  simp only [Action.render,there,led,bind,Except.bind,Except.mapError,found]
  rfl

/-- A readable file that was listed with names that are texts and hold no backslash has the includes
that its text shows at its place listed by the analysis of its path and, wherever its path without
links can be told, by the listing of a single file: the same statements, with the same targets if that
path has the same parent. A file that is no link is at the end of its path. -/
theorem includesAgree {v : Volume} {root : Path} {settings : Settings} {session : Session}
    {state : ProjectState} {file : SourceFile} {text : Text} (sound : v.top.WellFormed)
    (scanned : (Session.start settings).scan v root = .ok (session,state))
    (mem : file ∈ state.files) (texts : file.HasTextNames state.root) (plain : '\\' ∉ file.relative)
    (readable : SourceText.read v file.absolute = .ok text) :
    let found := Include.extract (Include.siteOf v state.root file.absolute) text
    ∃ analysis : Analysis,
      session.analyze v ReferenceKind.all [file.relative] true = .ok analysis ∧
      analysis.includes = found.map (fun i => ⟨i,file.relative⟩) ∧
      (∀ choice format, Command.settings v choice = .ok settings →
        (Action.analyze root [file.relative] true choice format).render v =
          .ok (format.ofAnalysis [file.relative] analysis)) ∧
      (∀ own inside, file.absolute = Volume.pathOf own → v.top.at? own = some (.file inside) →
        v.canonical (file.handle root) = .ok file.absolute) ∧
      ∀ real, v.canonical (file.handle root) = .ok real → ∃ printed : List Include,
        (Action.includes (file.handle root) root).render v =
          .ok ((Json.array (printed.map Include.toJson)).write .pretty) ∧
        printed.map Include.withoutTarget = found.map Include.withoutTarget ∧
        (real.parent? = file.absolute.parent? → printed = found) := by
  intro found
  obtain ⟨published,scan⟩ := Session.scanIff.mp scanned
  have current : session.current = some state := by rw [published]
  have listed := (ProjectState.scanIff.mp scan).1
  have faithful := Scan.runFaithful sound listed
  have leads : state.root.join (Path.ofText file.relative) = file.absolute :=
    (faithful.leads file mem).mpr texts
  have selected : normalizeSelection [file.relative] = [file.relative] :=
    (faithful.selects file mem).mpr plain
  have analyzed : session.analyze v ReferenceKind.all [file.relative] true = .ok _ :=
    Session.analyzeIff.mpr ⟨state,current,List.cons_ne_nil _ _,rfl⟩
  have includes := Analysis.includesOfFile (leads.symm ▸ readable) ReferenceKind.all state.index
  rw [leads] at includes
  obtain ⟨place,content,reached,rfl⟩ := SourceText.readIff.mp readable
  refine ⟨_,analyzed,includes,?_,?_,?_⟩
  · intro choice format chosen
    rw [← selected] at analyzed
    have rendered := analysisRendered scanned analyzed chosen format
    rwa [selected] at rendered
  · intro own inside same entry
    exact Scan.canonicalRegular sound listed mem texts reached same entry
  · intro real canonical
    have led := Scan.canonicalReached sound listed mem texts reached canonical
    have read := SourceText.readIff.mpr ⟨place,content,led,rfl⟩
    have rendered := includesRendered (Scan.canonicalRoot sound listed) canonical read
    refine ⟨_,rendered,Include.extractStatements _ _ _,fun same => ?_⟩
    rw [Include.siteOfParent same]

namespace Gallery

/- A program, a link beside it and a link to a file of another directory, a name with a backslash and
a name in Latin-1, in a project that is given by a relative path. -/
def volume : Volume :=
  let name (s : String) : Bytes := Path.ofText s.toList
  let frame := name "<?php\nrequire __DIR__ . '/x.php';\n"
  let project : Listing := .folder (name "lib") (.file (name "frame.php") frame .empty)
    (.file (name "run.php") (name "<?php\n\ninclude('lib/frame.php');\n")
      (.link (name "near.php") (name "run.php") (.link (name "far.php") (name "lib/frame.php")
        (.file (name "b\\c.php") frame (.file (name "caf" ++ 0xE9::name ".php") frame .empty)))))
  ⟨.folder (name "srv") (.folder (name "shop") project .empty) .empty,[name "srv"]⟩

/- The file of the project at a path of names. -/
def file (names : List Bytes) : SourceFile :=
  Scan.fileAt [Path.ofText "srv".toList,Path.ofText "shop".toList] names

def near : SourceFile := file [Path.ofText "near.php".toList]

def far : SourceFile := file [Path.ofText "far.php".toList]

def split : SourceFile := file [Path.ofText "b\\c.php".toList]

def latin : SourceFile := file [Path.ofText "caf".toList ++ 0xE9::Path.ofText ".php".toList]

def state : ProjectState :=
  ⟨Path.ofText "/srv/shop".toList,[split,latin,far,
    file [Path.ofText "lib".toList,Path.ofText "frame.php".toList],near,
    file [Path.ofText "run.php".toList]],ClassIndex.empty,.zf1,Mapping.defaults⟩

theorem galleryScanned : (Session.start Settings.default).scan volume (Path.ofText "shop".toList) =
    .ok (⟨Settings.default,some state⟩,state) := by decide +kernel

theorem nearListed :
    let root := Path.ofText "shop".toList
    let shown : Include := ⟨.include,"'lib/frame.php'".toList,"lib/frame.php".toList,3⟩
    volume.top.WellFormed ∧
    ∃ session state text analysis,
      (Session.start Settings.default).scan volume root = .ok (session,state) ∧
      near ∈ state.files ∧ near.HasTextNames state.root ∧ '\\' ∉ near.relative ∧
      SourceText.read volume near.absolute = .ok text ∧
      session.analyze volume ReferenceKind.all [near.relative] true = .ok analysis ∧
      analysis.includes = [⟨shown,near.relative⟩] ∧
      volume.canonical (near.handle root) = .ok (Path.ofText "/srv/shop/run.php".toList) ∧
      (Action.includes (near.handle root) root).render volume =
        .ok ((Json.array [shown.toJson]).write .pretty) := by
  intro root shown
  have sound : volume.top.WellFormed := by decide
  have mem : near ∈ state.files := by decide +kernel
  have texts : near.HasTextNames state.root := ⟨["near.php".toList],by decide +kernel⟩
  have plain : '\\' ∉ near.relative := by decide +kernel
  have read : SourceText.read volume near.absolute =
      .ok "<?php\n\ninclude('lib/frame.php');\n".toList := by decide +kernel
  have canonical : volume.canonical (near.handle root) =
      .ok (Path.ofText "/srv/shop/run.php".toList) := by decide +kernel
  have analyzed : (Session.mk Settings.default (some state)).analyze volume
      ReferenceKind.all [near.relative] true = .ok ⟨[],[⟨shown,near.relative⟩]⟩ := by decide +kernel
  have parent : (Path.ofText "/srv/shop/run.php".toList).parent? = near.absolute.parent? := by
    decide +kernel
  obtain ⟨analysis,answer,includes,_,_,agree⟩ :=
    includesAgree sound galleryScanned mem texts plain read
  cases answer.symm.trans analyzed
  obtain ⟨i,found,same⟩ := List.map_eq_singleton_iff.mp includes.symm
  cases same
  obtain ⟨printed,rendered,_,agrees⟩ := agree _ canonical
  rw [agrees parent,found] at rendered
  exact ⟨sound,_,_,_,_,galleryScanned,mem,texts,plain,read,analyzed,rfl,canonical,rendered⟩

/- The link is read at its two places, the name with a backslash is selected as another file, and no
path leads to the name in Latin-1. -/
theorem galleryDisagrees :
    let root := Path.ofText "shop".toList
    let shown (target : Text) : Include := ⟨.require,"__DIR__ . '/x.php'".toList,target,2⟩
    let listing (file : SourceFile) := (Action.includes (file.handle root) root).render volume
    ∃ session state,
      (Session.start Settings.default).scan volume root = .ok (session,state) ∧
      far ∈ state.files ∧ split ∈ state.files ∧ latin ∈ state.files ∧
      SourceText.read volume latin.absolute = SourceText.read volume far.absolute ∧
      (∃ analysis, session.analyze volume ReferenceKind.all [far.relative] true = .ok analysis ∧
        analysis.includes = [⟨shown "x.php".toList,far.relative⟩]) ∧
      listing far = .ok ((Json.array [(shown "lib/x.php".toList).toJson]).write .pretty) ∧
      (∃ analysis, session.analyze volume ReferenceKind.all (normalizeSelection [split.relative])
        true = .ok analysis ∧ analysis.includes = []) ∧
      listing split = .ok ((Json.array [(shown "x.php".toList).toJson]).write .pretty) ∧
      (∃ analysis, session.analyze volume ReferenceKind.all [latin.relative] true =
        .ok analysis ∧ analysis.includes = []) ∧
      ∃ complaint, listing latin = .error complaint := by
  intro root shown listing
  have analysis (selected : List Text) (includes : List SelectedInclude)
      (same : (Session.mk Settings.default (some state)).analyze volume ReferenceKind.all
        selected true = .ok ⟨[],includes⟩) : ∃ analysis,
      (Session.mk Settings.default (some state)).analyze volume ReferenceKind.all selected
        true = .ok analysis ∧ analysis.includes = includes := ⟨_,same,rfl⟩
  exact ⟨_,_,galleryScanned,by decide +kernel,by decide +kernel,by decide +kernel,
    by decide +kernel,analysis _ _ (by decide +kernel),by decide +kernel,
    analysis _ _ (by decide +kernel),by decide +kernel,analysis _ _ (by decide +kernel),_,rfl⟩

end Gallery
end Command
end ProjectSlice
