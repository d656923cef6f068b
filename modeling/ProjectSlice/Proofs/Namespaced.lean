import ProjectSlice.Proofs.Naming
import ProjectSlice.Proofs.Utf8.Cut

/-! Namespaced names. The name of a file below `app` tells the path of the file but for the case of
its extension, and its backslash keeps it apart from every declared name. Main statement: the index
of a namespaced project leads from each such name to its file and back. -/
namespace ProjectSlice
open Sequence Text

namespace Sequence

theorem cutAtLast {α : Type} {mark : α} {a b s t : List α} (free : mark ∉ s) (free' : mark ∉ t)
    (same : a ++ mark::s = b ++ mark::t) : a = b ∧ s = t := by
  rcases List.append_eq_append_iff.mp same with ⟨between,rfl,rest⟩ | ⟨between,rfl,rest⟩
  · cases between with
    | nil => exact ⟨(List.append_nil a).symm,(List.cons.inj rest).2⟩
    | cons x between => exact absurd ((List.cons.inj rest).2 ▸ by simp) free
  · cases between with
    | nil => exact ⟨List.append_nil b,(List.cons.inj rest).2.symm⟩
    | cons x between => exact absurd ((List.cons.inj rest).2 ▸ by simp) free'

end Sequence

theorem replacedBack {old new : Char} {t : Text} (absent : new ∉ t) :
    replaced new old (replaced old new t) = t := by
  unfold replaced
  rw [List.map_map]
  refine (List.map_congr_left fun c mem => ?_).trans (List.map_id t)
  have other : c ≠ new := fun same => absent (same ▸ mem)
  by_cases same : c = old
  · simp [same]
  · simp [same,other]

/-- Two files whose paths differ in the case of their extension alone. -/
def SourceFile.ApartInCase (f g : SourceFile) : Prop :=
  f.relative ≠ g.relative ∧ ∃ stem extension other,
    lower extension = sourceExtension ∧ lower other = sourceExtension ∧
    f.relative = stem ++ '.'::extension ∧ g.relative = stem ++ '.'::other

theorem SourceFile.ApartInCase.lower {f g : SourceFile} (apart : f.ApartInCase g) :
    lower f.relative = lower g.relative := by
  obtain ⟨_,stem,extension,other,same,same',path,path'⟩ := apart
  rw [path,path']
  simp only [Text.lower,List.map_append,List.map_cons] at same same' ⊢
  rw [same,same']

def IsSourcePath (path : Text) : Prop := ∃ stem c extension,
  c ≠ '/' ∧ lower extension = sourceExtension ∧ path = (stem ++ [c]) ++ '.'::extension

theorem IsSourcePath.below {path folder : Text} (source : IsSourcePath path)
    (stopless : '.' ∉ folder) (inside : folder <+: path) : ∃ p extension,
      lower extension = sourceExtension ∧ path = folder ++ p ++ '.'::extension := by
  obtain ⟨stem,c,extension,_,same,rfl⟩ := source
  obtain ⟨rest,whole⟩ := inside
  rcases List.append_eq_append_iff.mp whole with ⟨p,front,_⟩ | ⟨between,front,back⟩
  · exact ⟨p,extension,same,by rw [front]⟩
  · cases between with
    | nil => exact ⟨[],extension,same,by rw [front,List.append_nil,List.append_nil]⟩
    | cons x between =>
      rw [(List.cons.inj back).1,front] at stopless
      exact absurd (by simp) stopless

namespace Scan

theorem joinedLast (front : List Text) (last : Text) :
    last <:+ joined ['/'] (front ++ [last]) := by
  induction front with
  | nil =>
    rw [List.nil_append,joined,List.intercalate_singleton]
  | cons part front ih =>
    rw [joined,List.cons_append,List.intercalate_cons_of_ne_nil (by simp)]
    exact ih.trans (List.suffix_append _ _)

theorem sourcePath {v : Volume} {root below : Position} (sound : v.top.WellFormed)
    (source : IsSource v root below) : IsSourcePath (fileAt root below).relative := by
  obtain ⟨_,valid⟩ := sourceNames sound source
  obtain ⟨_,last,stem,extension,nonempty,same,rfl⟩ := source.named
  obtain ⟨front,rfl⟩ := List.getLast?_eq_some_iff.mp last
  obtain ⟨_,_,_,slashless,_⟩ := valid (stem ++ Path.dot::Utf8.encode extension) (by simp)
  have read : Utf8.decodeLossy (stem ++ Path.dot::Utf8.encode extension) =
      Utf8.decodeLossy stem ++ '.'::extension :=
    (Utf8.decodeCut (by decide) stem _).trans (by rw [Utf8.decodeEncode]; rfl)
  obtain ⟨before,whole⟩ := joinedLast (front.map Utf8.decodeLossy)
    (Utf8.decodeLossy stem ++ '.'::extension)
  obtain ⟨inner,c,ends⟩ := (List.eq_nil_or_concat _).resolve_left (mt Utf8.decodeNilIff.mp nonempty)
  rw [List.concat_eq_append] at ends
  refine ⟨before ++ inner,c,extension,?_,same,?_⟩
  · rintro rfl
    have byte : 47 ∈ stem := Utf8.byteOfDecoded (c := '/') (by decide) (by simp [ends])
    exact slashless (List.mem_append_left _ byte)
  · rw [fileAt,List.map_append,List.map_singleton,read,← whole,ends]
    simp only [List.append_assoc]

end Scan

def namespaced (p : Text) : Text := "App\\".toList ++ replaced '/' '\\' p

theorem namespacedInjective {p q : Text} (plain : '\\' ∉ p) (plain' : '\\' ∉ q)
    (same : namespaced p = namespaced q) : p = q := by
  rw [← replacedBack plain,List.append_cancel_left same,replacedBack plain']

theorem Framework.namespacedIff {path name : Text} (source : IsSourcePath path) :
    namespacedName? path = some name ↔ ∃ p extension, lower extension = sourceExtension ∧
      path = "app/".toList ++ p ++ '.'::extension ∧ name = namespaced p := by
  obtain ⟨stem,c,extension,notSlash,same,rfl⟩ := source
  have bare : withoutExtension ((stem ++ [c]) ++ '.'::extension) = stem ++ [c] :=
    withoutExtensionSource same (by simpa using notSlash)
  unfold namespacedName?
  rw [bare]
  constructor
  · intro named
    split at named
    · contradiction
    · contradiction
    · rename_i p _ below
      cases named
      exact ⟨p,extension,same,by rw [afterIff.mp below],rfl⟩
  · rintro ⟨p,other,same',whole,rfl⟩
    obtain ⟨front,_⟩ := cutAtLast (extensionStopless same) (extensionStopless same') whole
    rw [front,afterAppend]
    cases p with
    | nil =>
      have last : (stem ++ [c]).getLast? = some '/' := congrArg List.getLast? front
      rw [List.getLast?_concat] at last
      exact absurd (Option.some.inj last) notSlash
    | cons d p => rfl

namespace ClassIndex

section
variable {v : Volume} {framework : Framework} {mappings : List Mapping} {files : List SourceFile}
  {file : SourceFile} {name : Text} (mem : file ∈ files)
  (named : file.className? v framework mappings = some name)
include mem named

theorem fileForAll (all : ∀ other ∈ files, other.className? v framework mappings = some name →
    other.relative = file.relative) :
    (build v framework mappings files).fileFor? name = some file.relative := by
  have known : ((build v framework mappings files).fileFor? name).isSome :=
    fileForBuildIsSome.mpr (List.mem_filterMap.mpr ⟨file,mem,named⟩)
  obtain ⟨path,found⟩ := Option.isSome_iff_exists.mp known
  obtain ⟨other,among,rfl,same⟩ := fileForSource found
  rw [found,all other among same]

theorem classForAll (all : ∀ other ∈ files, other.relative = file.relative →
    other.className? v framework mappings = some name) :
    (build v framework mappings files).classFor? file.relative = some name := by
  let records := (files.filter fun other => other.relative = file.relative).filterMap
    (·.className? v framework mappings)
  have own : name ∈ records :=
    List.mem_filterMap.mpr ⟨file,List.mem_filter.mpr ⟨mem,by simp⟩,named⟩
  have alike : ∀ record ∈ records, record = name := by
    intro record among
    obtain ⟨other,inside,found⟩ := List.mem_filterMap.mp among
    obtain ⟨listed,same⟩ := List.mem_filter.mp inside
    exact Option.some.inj (found.symm.trans (all other listed (of_decide_eq_true same)))
  have last := List.getLast?_eq_some_getLast (List.ne_nil_of_mem own)
  rw [classForBuild]
  exact last.trans (congrArg some (alike _ (List.getLast_mem _)))

end
end ClassIndex

namespace ProjectState

/-- Whatever is declared anywhere, a file below `app` keeps its namespaced name and is found under
it, as long as no name has a backslash and no other file has its path up to the case of the
extension. Names that are no UTF-8 do no harm. -/
theorem namespacedKept {v : Volume} {root : Path} {mappings : List Mapping} {state : ProjectState}
    (sound : v.top.WellFormed) (scanned : scan v root .laravel mappings = .ok state)
    (plain : ∀ file ∈ state.files, '\\' ∉ file.relative)
    (apart : ∀ f ∈ state.files, ∀ g ∈ state.files, ¬f.ApartInCase g) :
    (∀ file ∈ state.files, "app/".toList <+: file.relative → ∃ p extension,
      lower extension = sourceExtension ∧
      file.relative = "app/".toList ++ p ++ '.'::extension) ∧
    ∀ file ∈ state.files, ∀ p extension, lower extension = sourceExtension →
      file.relative = "app/".toList ++ p ++ '.'::extension →
      state.index.fileFor? (namespaced p) = some file.relative ∧
      state.index.classFor? file.relative = some (namespaced p) := by
  obtain ⟨listed,indexed,_,_⟩ := scanIff.mp scanned
  obtain ⟨_,_,_,_,files⟩ := Scan.runPlaces sound listed
  have source : ∀ file ∈ state.files, IsSourcePath file.relative := by
    intro file mem
    obtain ⟨below,source,rfl⟩ := files file mem
    exact Scan.sourcePath sound source
  have absent {file : SourceFile} {p extension : Text}
      (path : file.relative = "app/".toList ++ p ++ '.'::extension) (mem : file ∈ state.files) :
      '\\' ∉ p :=
    fun inside => plain file mem (by simp [path,inside])
  refine ⟨fun file mem below => ?_,fun file mem p extension same path => ?_⟩
  · exact (source file mem).below (by decide) below
  · have own : ∀ other ∈ state.files, other.relative = file.relative →
        other.className? v .laravel (Mapping.orDefaults mappings) = some (namespaced p) := by
      intro other among alike
      have named : Framework.namespacedName? other.relative = some (namespaced p) :=
        (Framework.namespacedIff (source other among)).mpr ⟨p,extension,same,alike.trans path,rfl⟩
      exact Option.or_eq_some_iff.mpr (Or.inl named)
    have alone : ∀ other ∈ state.files,
        other.className? v .laravel (Mapping.orDefaults mappings) = some (namespaced p) →
        other.relative = file.relative := by
      intro other among named
      rcases Option.or_eq_some_iff.mp named with convention | ⟨_,declared⟩
      · obtain ⟨q,extension',same',path',alike⟩ :=
          (Framework.namespacedIff (source other among)).mp convention
        have known : p = q := namespacedInjective (absent path mem) (absent path' among) alike
        by_contra differs
        exact apart file mem other among ⟨Ne.symm differs,"app/".toList ++ p,extension,extension',
          same,same',path,known ▸ path'⟩
      · have backslash : '\\' ∈ namespaced p := by simp [namespaced]
        exact absurd ((SourceText.declaredWord declared).2 _ backslash) (by decide)
    rw [indexed]
    exact ⟨ClassIndex.fileForAll mem (own file mem rfl) alone,
      ClassIndex.classForAll mem (own file mem rfl) own⟩

/- Below `app` a file with a large extension and one with a second full stop, which both declare other
classes, and elsewhere a file that declares a name without its namespace. -/
def academy : Volume :=
  let name (s : String) : Bytes := Path.ofText s.toList
  let models : Listing := .file (name "User.PHP") (name "class Pupil {}\n") .empty
  ⟨.folder (name "app") (.folder (name "Models") models
      (.file (name "User.old.php") (name "class User {}\n") .empty))
    (.file (name "lib.php") (name "namespace App\\Models;\nclass User {}\n") .empty),[]⟩

theorem academyKept :
    let root := Path.ofText "/".toList
    academy.top.WellFormed ∧ ∃ state, scan academy root .laravel [] = .ok state ∧
      state.relativePaths =
        List.map String.toList ["app/Models/User.PHP","app/User.old.php","lib.php"] ∧
      (∀ file ∈ state.files, '\\' ∉ file.relative) ∧
      (∀ f ∈ state.files, ∀ g ∈ state.files, ¬f.ApartInCase g) ∧
      state.index.fileFor? "App\\Models\\User".toList = some "app/Models/User.PHP".toList ∧
      state.index.classFor? "app/User.old.php".toList = some "App\\User.old".toList := by
  intro root
  let file (s : String) : SourceFile := ⟨s.toList,Path.ofText ('/'::s.toList)⟩
  let files := [file "app/Models/User.PHP",file "app/User.old.php",file "lib.php"]
  have sound : academy.top.WellFormed := by decide
  have listed : Scan.run academy root = .ok ⟨root,files⟩ := by decide +kernel
  let index := ClassIndex.build academy .laravel Mapping.defaults files
  let state : ProjectState := ⟨root,files,index,.laravel,Mapping.defaults⟩
  have scanned : scan academy root .laravel [] = .ok state := scanIff.mpr ⟨listed,rfl,rfl,rfl⟩
  have plain : ∀ file ∈ state.files, '\\' ∉ file.relative := by decide +kernel
  have apart : ∀ f ∈ state.files, ∀ g ∈ state.files, ¬f.ApartInCase g := by
    have distinct : ∀ f ∈ files, ∀ g ∈ files,
        lower f.relative = lower g.relative → f.relative = g.relative := by decide +kernel
    exact fun f memF g memG same => same.1 (distinct f memF g memG same.lower)
  obtain ⟨_,kept⟩ := namespacedKept sound scanned plain apart
  have user := kept (file "app/Models/User.PHP") (by simp [state,files]) "Models/User".toList
    "PHP".toList (by decide) rfl
  have old := kept (file "app/User.old.php") (by simp [state,files]) "User.old".toList
    "php".toList (by decide) rfl
  exact ⟨sound,state,scanned,rfl,plain,apart,user.1,old.2⟩

end ProjectState
end ProjectSlice
