import ProjectSlice.Proofs.Dependency
import ProjectSlice.Proofs.Extraction
import ProjectSlice.Proofs.Import
import ProjectSlice.Proofs.Instantiation
import ProjectSlice.Proofs.Naming
import ProjectSlice.Proofs.Session

/-! What an analysis reaches. A name that a line of a selected file shows stays among the references
of the file unless it is denied, and the file of an indexed name stays among the dependencies unless
it is selected. Main statements: an import of an indexed class reaches its file, and so does the
creation of an object if the name of its class has at least two characters. -/
namespace ProjectSlice
open Text

namespace Reference

theorem shownOfLine {kinds : List ReferenceKind} {text name line : Text} {kind : ReferenceKind}
    (asked : kind ∈ kinds) (among : line ∈ lines text) (code : isComment line = false)
    (reads : name ∈ kind.names line) : ∃ n, ShownOn kinds text (trim name) kind n := by
  obtain ⟨n,atLine⟩ := List.mem_iff_getElem?.mp among
  exact ⟨n + 1,asked,n,line,rfl,atLine,code,name,reads,rfl⟩

theorem extractOfShown {kinds : List ReferenceKind} {text name : Text} {kind : ReferenceKind}
    {line : Nat} (nonempty : name ≠ []) (allowed : isDenied name = false)
    (shown : ShownOn kinds text name kind line) :
    ∃ r ∈ extract kinds text, r.className = name := by
  obtain ⟨m,mem,same,_⟩ := keptOfShown nonempty allowed shown
  rw [extractPlaced]
  exact ⟨m.2,List.mem_map_of_mem mem,same⟩

end Reference

namespace Analysis

def SelectedLine (v : Volume) (root : Path) (selected : List Text) (line : Text) : Prop :=
  ∃ source ∈ selected, ∃ text, SourceText.read v (root.join (Path.ofText source)) = .ok text ∧
    line ∈ lines text

/- Neither another reference nor another file can hide the file of an indexed name: either would be
recorded with the same file. -/
theorem reachesShown {v : Volume} {kinds : List ReferenceKind} {index : ClassIndex} {root : Path}
    {selected : List Text} {line name file : Text} {kind : ReferenceKind}
    (inside : SelectedLine v root selected line) (asked : kind ∈ kinds)
    (code : isComment line = false) (reads : name ∈ kind.names line) (solid : trim name = name)
    (nonempty : name ≠ []) (allowed : isDenied name = false)
    (indexed : index.fileFor? name = some file) (withIncludes : Bool) :
    file ∈ (resolve v kinds index root withIncludes selected).dependencies.map Dependency.file ∨
      file ∈ selected := by
  obtain ⟨source,own,text,read,among⟩ := inside
  obtain ⟨n,shown⟩ := Reference.shownOfLine asked among code reads
  rw [solid] at shown
  obtain ⟨r,extracted,same⟩ := Reference.extractOfShown nonempty allowed shown
  have found : Reference.ofFile v kinds (root.join (Path.ofText source)) =
      .ok (Reference.extract kinds text) := by rw [Reference.ofFile,read]; rfl
  have tried : name ∈ namesTried index r.className := by
    rw [same,namesTried,indexed]
    exact List.mem_singleton_self name
  have hit : Dependency.mk name file r.kind source ∈
      trail (Reference.ofFile v kinds) index root selected :=
    memTrail.mpr ⟨source,own,_,found,r,extracted,memHitsOf.mpr ⟨tried,indexed,rfl,rfl⟩⟩
  by_cases already : file ∈ selected
  · exact Or.inr already
  · exact Or.inl (memDependencyFiles.mpr ⟨List.mem_map_of_mem hit,already⟩)

end Analysis

namespace Session

section
variable {v w : Volume} {root : Path} {framework : Framework} {mappings : List Mapping}
  {state : ProjectState} {session : Session} {selected : List Text} {line name file : Text}

theorem analysisReaches {kind : ReferenceKind}
    (scanned : ProjectState.scan v root framework mappings = .ok state)
    (published : session.current = some state) (indexed : state.index.fileFor? name = some file)
    (allowed : isDenied name = false)
    (inside : Analysis.SelectedLine w state.root selected line)
    (code : isComment line = false) (reads : name ∈ kind.names line) (solid : trim name = name)
    (withIncludes : Bool) :
    ∃ analysis, session.analyze w ReferenceKind.all selected withIncludes = .ok analysis ∧
      (file ∈ analysis.dependencies.map Dependency.file ∨ file ∈ selected) := by
  have nonempty : name ≠ [] := ProjectState.indexedNonempty scanned indexed
  have anything : selected ≠ [] := by
    obtain ⟨_,own,_⟩ := inside
    exact List.ne_nil_of_mem own
  exact ⟨_,analyzeIff.mpr ⟨state,published,anything,rfl⟩,
    Analysis.reachesShown inside (ReferenceKind.memAll kind) code reads solid nonempty allowed
      indexed withIncludes⟩

/-- Whatever else the selected files and the index contain, a line that imports an indexed class
brings the file of the class into the analysis. -/
theorem importReachesFile (scanned : ProjectState.scan v root framework mappings = .ok state)
    (published : session.current = some state) (indexed : state.index.fileFor? name = some file)
    (allowed : isDenied name = false)
    (inside : Analysis.SelectedLine w state.root selected line)
    (code : isComment line = false) (imports : ReferenceKind.Imports name line)
    (withIncludes : Bool) :
    ∃ analysis, session.analyze w ReferenceKind.all selected withIncludes = .ok analysis ∧
      (file ∈ analysis.dependencies.map Dependency.file ∨ file ∈ selected) := by
  have nonempty : name ≠ [] := ProjectState.indexedNonempty scanned indexed
  obtain ⟨reads,solid⟩ := ReferenceKind.importedName imports nonempty
  exact analysisReaches scanned published indexed allowed inside code reads solid withIncludes

def importLines : List Text := List.map String.toList
  [" use App\\Billing\\Invoice;","if ($late) App::uses(\x27Order\x27, \x27Model\x27);",
    "App::import(\x27Vendor\x27, \x27Mail\x27);"]

/- A project whose program imports three classes in the three ways: one that is named by its path and
two that are named by their declarations. -/
def office : Volume :=
  let entry (s : String) : Bytes := Path.ofText s.toList
  let app := Listing.folder (entry "Billing") (.file (entry "Invoice.php") [] .empty) .empty
  let lib := Listing.file (entry "mail.php") (entry "final class Mail {}\n")
    (.file (entry "order.php") (entry "<?php\nclass Order {}\n") .empty)
  let program := Path.ofText (importLines.flatMap (· ++ ['\n']))
  ⟨.folder (entry "app") app
    (.folder (entry "lib") lib (.file (entry "run.php") program .empty)),[]⟩

theorem officeImportsReachFiles :
    let sources := List.map String.toList
      ["app/Billing/Invoice.php","lib/mail.php","lib/order.php","run.php"]
    ∃ state, ProjectState.scan office (Path.ofText "/".toList) .laravel [] = .ok state ∧
      state.relativePaths = sources ∧
      ∃ analysis, (Session.mk Settings.default (some state)).analyze office ReferenceKind.all
          ["run.php".toList] false = .ok analysis ∧
        ∀ file ∈ sources,
          file ∈ analysis.dependencies.map Dependency.file ∨ file ∈ ["run.php".toList] := by
  intro sources
  let file (below : Text) : SourceFile := ⟨below,Path.ofText ('/'::below)⟩
  let invoice := "App\\Billing\\Invoice".toList
  let index := ((ClassIndex.empty.insert invoice "app/Billing/Invoice.php".toList).insert
    "Mail".toList "lib/mail.php".toList).insert "Order".toList "lib/order.php".toList
  let state : ProjectState :=
    ⟨Path.ofText "/".toList,sources.map file,index,.laravel,Mapping.defaults⟩
  have scanned : ProjectState.scan office (Path.ofText "/".toList) .laravel [] = .ok state := by
    decide +kernel
  have inside : ∀ line ∈ importLines,
      Analysis.SelectedLine office state.root ["run.php".toList] line := by
    have read : SourceText.read office (state.root.join (Path.ofText "run.php".toList)) =
        .ok (importLines.flatMap (· ++ ['\n'])) := by decide +kernel
    have among : ∀ line ∈ importLines, line ∈ lines (importLines.flatMap (· ++ ['\n'])) := by
      decide +kernel
    exact fun line mem => ⟨_,List.mem_singleton_self _,_,read,among line mem⟩
  have code : ∀ line ∈ importLines, isComment line = false := by decide +kernel
  have published : (Session.mk Settings.default (some state)).current = some state := rfl
  have used : ReferenceKind.Imports invoice " use App\\Billing\\Invoice;".toList :=
    .used ["Billing".toList,"Invoice".toList] (by decide) (by decide) rfl (by decide +kernel)
  have registered : ReferenceKind.Imports "Order".toList
      "if ($late) App::uses(\x27Order\x27, \x27Model\x27);".toList :=
    .registered "Model".toList (List.all_eq_true.mp rfl) ⟨"if ($late) ".toList,";".toList,rfl⟩
  have imported : ReferenceKind.Imports "Mail".toList
      "App::import(\x27Vendor\x27, \x27Mail\x27);".toList :=
    .imported "Vendor".toList (List.all_eq_true.mp rfl) (by decide) ⟨[],";".toList,rfl⟩
  have reaches (name file line : Text) (indexed : state.index.fileFor? name = some file)
      (allowed : isDenied name = false) (mem : line ∈ importLines)
      (imports : ReferenceKind.Imports name line) :=
    importReachesFile scanned published indexed allowed (inside line mem) (code line mem) imports
      false
  obtain ⟨analysis,analyzed,first⟩ :=
    reaches _ _ _ rfl (by decide +kernel) (by decide) used
  obtain ⟨_,again,second⟩ := reaches _ _ _ rfl (by decide +kernel) (by decide) registered
  cases Except.ok.inj (again.symm.trans analyzed)
  obtain ⟨_,again,third⟩ := reaches _ _ _ rfl (by decide +kernel) (by decide) imported
  cases Except.ok.inj (again.symm.trans analyzed)
  refine ⟨state,scanned,rfl,analysis,analyzed,fun file mem => ?_⟩
  simp only [sources,List.map_cons,List.map_nil,List.mem_cons,List.not_mem_nil,or_false] at mem
  rcases mem with rfl | rfl | rfl | rfl
  · exact first
  · exact third
  · exact second
  · exact Or.inr (List.mem_singleton_self _)

/-- A line that does nothing but create one object shows its class, and so brings the file of the
class into the analysis, if the name of the class has at least two characters; it shows no class at
all if the name is a single capital. -/
theorem creationReachesFile (scanned : ProjectState.scan v root framework mappings = .ok state)
    (published : session.current = some state) (indexed : state.index.fileFor? name = some file)
    (allowed : isDenied name = false)
    (inside : Analysis.SelectedLine w state.root selected line)
    (capitalized : ReferenceKind.IsCapitalized name)
    (creates : trim line = "$x = new ".toList ++ name ++ "();".toList) (withIncludes : Bool) :
    ReferenceKind.names line .instantiation = (if 2 ≤ name.length then [name] else []) ∧
    (2 ≤ name.length →
      ∃ analysis, session.analyze w ReferenceKind.all selected withIncludes = .ok analysis ∧
        (file ∈ analysis.dependencies.map Dependency.file ∨ file ∈ selected)) := by
  have shown := ReferenceKind.newNames capitalized creates
  refine ⟨shown,fun long => ?_⟩
  rw [if_pos long] at shown
  have reads : name ∈ ReferenceKind.names line .instantiation := by
    rw [shown]
    exact List.mem_singleton_self name
  have code : isComment line = false := by
    rw [isComment,creates]
    rfl
  have solid : trim name = name := by
    obtain ⟨c,word,rfl,capital,all⟩ := capitalized
    refine trimSolid fun d mem => wordNotBlank ?_
    rcases List.mem_cons.mp mem with rfl | mem
    · exact ReferenceKind.wordOfCapital capital
    · exact all d mem
  exact analysisReaches scanned published indexed allowed inside code reads solid withIncludes

end

/- A project with one class, whose program does nothing but create an object of it. -/
def workshop (name : Text) : Volume :=
  let declaration := "<?php\nclass ".toList ++ name ++ " {}\n".toList
  let program := "<?php\n$x = new ".toList ++ name ++ "();\n".toList
  let lib := Listing.file (Path.ofText (name ++ ".php".toList)) (Path.ofText declaration) .empty
  ⟨.folder (Path.ofText "lib".toList) lib
    (.file (Path.ofText "run.php".toList) (Path.ofText program) .empty),[]⟩

/- What a scan of it finds. -/
def workshopState (name : Text) : ProjectState :=
  let declaring := "lib/".toList ++ name ++ ".php".toList
  let file (below : Text) : SourceFile := ⟨below,Path.ofText ('/'::below)⟩
  ⟨Path.ofText "/".toList,[file declaring,file "run.php".toList],
    ClassIndex.empty.insert name declaring,.zf1,Mapping.defaults⟩

theorem twoLettersReached :
    let name := "Ox".toList
    let state := workshopState name
    (Session.start Settings.default).scan (workshop name) (Path.ofText "/".toList) =
      .ok (⟨Settings.default,some state⟩,state) ∧
    ReferenceKind.IsCapitalized name ∧ 2 ≤ name.length ∧
    ∃ analysis, (Session.mk Settings.default (some state)).analyze (workshop name)
        ReferenceKind.all ["run.php".toList] false = .ok analysis ∧
      "lib/Ox.php".toList ∈ analysis.dependencies.map Dependency.file := by
  intro name state
  have scanned : (Session.start Settings.default).scan (workshop name) (Path.ofText "/".toList) =
      .ok (⟨Settings.default,some state⟩,state) := by decide +kernel
  have published : (Session.mk Settings.default (some state)).current = some state := rfl
  have indexed : state.index.fileFor? name = some "lib/Ox.php".toList := by decide +kernel
  have inside : Analysis.SelectedLine (workshop name) state.root ["run.php".toList]
      "$x = new Ox();".toList :=
    ⟨_,List.mem_singleton_self _,"<?php\n$x = new Ox();\n".toList,by decide +kernel,
      by decide +kernel⟩
  have capitalized : ReferenceKind.IsCapitalized name := ⟨'O',['x'],rfl,rfl,List.all_eq_true.mp rfl⟩
  have long : 2 ≤ name.length := by decide
  obtain ⟨analysis,analyzed,reached⟩ := (creationReachesFile (scanIff.mp scanned).2 published
    indexed (by decide +kernel) inside capitalized (by decide +kernel) false).2 long
  exact ⟨scanned,capitalized,long,analysis,analyzed,reached.resolve_right (by decide)⟩

/- The index leads from the name to its file, but nothing leads from the program to the name. -/
theorem oneLetterMissed :
    let name := "A".toList
    let state := workshopState name
    (Session.start Settings.default).scan (workshop name) (Path.ofText "/".toList) =
      .ok (⟨Settings.default,some state⟩,state) ∧
    state.index.fileFor? name = some "lib/A.php".toList ∧
    ReferenceKind.IsCapitalized name ∧ isDenied name = false ∧
    Analysis.SelectedLine (workshop name) state.root ["run.php".toList] "$x = new A();".toList ∧
    ∃ analysis, (Session.mk Settings.default (some state)).analyze (workshop name)
        ReferenceKind.all ["run.php".toList] false = .ok analysis ∧
      "lib/A.php".toList ∉ analysis.dependencies.map Dependency.file ∧
      "lib/A.php".toList ∉ ["run.php".toList] := by
  intro name state
  have scanned : (Session.start Settings.default).scan (workshop name) (Path.ofText "/".toList) =
      .ok (⟨Settings.default,some state⟩,state) := by decide +kernel
  have inside : Analysis.SelectedLine (workshop name) state.root ["run.php".toList]
      "$x = new A();".toList :=
    ⟨_,List.mem_singleton_self _,"<?php\n$x = new A();\n".toList,by decide +kernel,
      by decide +kernel⟩
  have capitalized : ReferenceKind.IsCapitalized name := ⟨'A',[],rfl,rfl,nofun⟩
  have analyzed : (Session.mk Settings.default (some state)).analyze (workshop name)
      ReferenceKind.all ["run.php".toList] false = .ok Analysis.empty := by decide +kernel
  exact ⟨scanned,by decide +kernel,capitalized,by decide +kernel,inside,_,analyzed,by decide,
    by decide⟩

end Session
end ProjectSlice
