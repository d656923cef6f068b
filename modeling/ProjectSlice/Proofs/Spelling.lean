import ProjectSlice.Proofs.IncludeForm
import ProjectSlice.Proofs.Join
import ProjectSlice.Proofs.Utf8.RoundTrip

/-! How the target of an include is spelled. What is read below a root keeps the names of its file as
they are; a selection takes a path apart at both slashes. Main statement: a target is spelled as in a
selection exactly if it has no backslash and no climb, a backslash comes from the string of the
expression alone, and a climb only from a root that is the top of the file tree. -/
namespace ProjectSlice

namespace Path

def backslash : UInt8 := 92

theorem segmentInside {p : Path} {segment : Bytes} (mem : segment ∈ segments p) : segment ⊆ p := by
  have inside : segment ⊆ List.intercalate [slash] (segments p) :=
    (Sequence.partIntercalate mem).subset
  rwa [segments,List.intercalate_splitOn] at inside

/- A name is written in its path as it is. -/
theorem nameSegment {p : Path} {name : Bytes} (mem : Component.name name ∈ components p) :
    name ∈ segments p := by
  have inner {segment : Bytes} (read : innerComponent? segment = some (.name name)) :
      segment = name := by
    unfold innerComponent? at read
    grind
  obtain ⟨first,rest,cut,read⟩ := segmentsCut p
  rw [read] at mem
  rw [cut]
  rcases List.mem_append.mp mem with front | later
  · have same : first = name := by
      rw [Option.mem_toList,firstComponent?] at front
      grind
    exact same ▸ List.mem_cons_self
  · obtain ⟨segment,among,read⟩ := List.mem_filterMap.mp later
    exact inner read ▸ List.mem_cons_of_mem _ among

theorem cleanStepsKeep {standing parts : List Component} {name : Bytes}
    (mem : Component.name name ∈ parts.foldl cleanStep standing) :
    .name name ∈ standing ∨ Component.name name ∈ parts := by
  induction parts generalizing standing with
  | nil => exact .inl mem
  | cons c parts ih =>
    rcases ih mem with stood | later
    · have step : .name name ∈ standing ∨ Component.name name = c := by
        unfold cleanStep at stood
        grind
      exact step.imp_right fun same => List.mem_cons.mpr (.inl same)
    · exact .inr (List.mem_cons_of_mem _ later)

theorem nameOfClean {p : Path} {name : Bytes} (mem : Component.name name ∈ components p.clean) :
    name ⊆ p := by
  rw [componentsClean,List.mem_reverse] at mem
  exact segmentInside (nameSegment ((cleanStepsKeep mem).resolve_left List.not_mem_nil))

theorem joinInside {base p : Path} {b : UInt8} (mem : b ∈ base.join p) :
    b ∈ base ∨ b = slash ∨ b ∈ p := by
  unfold join at mem
  grind

theorem cleanStepRoot {standing : List Component} (stands : standing.getLast? = some .root)
    (c : Component) : (cleanStep standing c).getLast? = some .root := by
  unfold cleanStep
  grind

theorem cleanStepsRoot {parts standing : List Component}
    (stands : standing.getLast? = some .root) :
    (parts.foldl cleanStep standing).getLast? = some .root := by
  induction parts generalizing standing with
  | nil => exact stands
  | cons c parts ih => exact ih (cleanStepRoot stands c)

/- Nothing removes the root in front of an absolute path. -/
theorem rootStands {p : Path} (absolute : p.isAbsolute = true) :
    ∃ more, components p.clean = .root::more := by
  obtain ⟨first,rest,_,read⟩ := segmentsCut p
  rw [absolute] at read
  have last : ((components p).foldl cleanStep []).getLast? = some .root := by
    rw [read,List.foldl_append]
    exact cleanStepsRoot rfl
  rw [← List.head?_reverse,← componentsClean] at last
  exact List.head?_eq_some_iff.mp last

end Path

namespace RelativePath

/- What separates nothing in a path has no place in a normal form, and neither has a climb. -/
theorem normalSpelled {path normal : Text} (normalized : normalize path = some normal) :
    '\\' ∉ normal ∧ ['.','.'] ∉ normal.splitOn '/' := by
  refine ⟨?_,fun climbs => (normalizeBelow normalized _ climbs).2.2 rfl⟩
  obtain ⟨segments,_,plain,rfl⟩ := normalizePlain normalized
  intro mem
  rcases Sequence.memIntercalate mem with slash | ⟨segment,among,inside⟩
  · cases slash
  · exact (plainIff.mp (plain segment among)).2 inside

theorem normalizeNormal {path normal : Text} (normalized : normalize path = some normal) :
    normalize normal = some normal := by
  obtain ⟨segments,nonempty,plain,rfl⟩ := normalizePlain normalized
  exact normalizeOfPlain nonempty plain

theorem namesSpelled {names : List Bytes} (nonempty : names ≠ [])
    (valid : ∀ name ∈ names, Path.IsSegment name) :
    let path := Text.joined ['/'] (names.map Utf8.decodeLossy)
    normalize path = some path ↔ '\\' ∉ path := by
  refine normalizeJoinedIff (mt List.map_eq_nil_iff.mp nonempty) fun part mem => ?_
  obtain ⟨name,among,rfl⟩ := List.mem_map.mp mem
  exact Path.nameOfSegment (valid name among)

end RelativePath

namespace IncludeSite
open RelativePath (normalize)

theorem backslashInside {base : Path} {part : Text} {name : Bytes} (plain : Path.backslash ∉ base)
    (mem : .name name ∈ Path.components (base.join (Path.ofText part)).clean)
    (has : '\\' ∈ Utf8.decodeLossy name) : '\\' ∈ part := by
  have byte : Path.backslash ∈ name := Utf8.byteOfDecoded (by decide) has
  rcases Path.joinInside (Path.nameOfClean mem byte) with front | slash | inside
  · exact absurd front plain
  · cases slash
  · exact Utf8.charOfByte (b := Path.backslash) (by decide) inside

/- A climb in front of names is the first segment. -/
theorem climbSplit {names : List Bytes} (valid : ∀ name ∈ names, Path.IsSegment name) :
    ['.','.'] ∈ (Text.joined ['/'] (['.','.']::names.map Utf8.decodeLossy)).splitOn '/' := by
  have plain : ∀ part ∈ ['.','.']::names.map Utf8.decodeLossy, '/' ∉ part := by
    refine List.forall_mem_cons.mpr ⟨by decide,fun part mem => ?_⟩
    obtain ⟨name,among,rfl⟩ := List.mem_map.mp mem
    exact (Path.nameOfSegment (valid name among)).2
  rw [Text.joined,List.splitOn_intercalate '/' plain (List.cons_ne_nil _ _)]
  exact List.mem_cons_self

section
variable {root p : Path} {text : Text} (absolute : root.isAbsolute = true)
  (below : root.clean.relativeTo? p.clean = some text)
include absolute below

/- Below an absolute root a clean path is names alone, or a climb from the top and names. -/
theorem absoluteShape : ∃ names : List Bytes,
    (∀ name ∈ names, Path.IsSegment name ∧ .name name ∈ Path.components p.clean) ∧
    ((names ≠ [] ∧ text = Text.joined ['/'] (names.map Utf8.decodeLossy)) ∨
      root.clean = [Path.slash] ∧
        text = Text.joined ['/'] (['.','.']::names.map Utf8.decodeLossy)) := by
  obtain ⟨front,names,known,valid,nonempty,rfl⟩ := Path.relativeShape below
  obtain ⟨more,rooted⟩ := Path.rootStands absolute
  have begins : front = [] ∨ Path.components root.clean = [.root] ∧ front = [.up] := by
    refine known.elim .inl fun begins => ?_
    rcases Path.frontsCut begins with none | empty | top
    · exact .inl none
    · exact absurd (rooted.symm.trans empty) (List.cons_ne_nil _ _)
    · exact .inr top
  refine ⟨names,valid,?_⟩
  rcases begins with rfl | ⟨top,rfl⟩
  · refine .inl ⟨mt List.map_eq_nil_iff.mpr nonempty,?_⟩
    rw [List.nil_append,List.map_map]
    rfl
  · refine .inr ⟨(Path.cleanOfComponents root).trans (congrArg _ top),?_⟩
    rw [List.singleton_append,List.map_cons,List.map_map]
    rfl

theorem belowSpelled :
    (normalize text = some text ↔ '\\' ∉ text ∧ ['.','.'] ∉ text.splitOn '/') ∧
    (['.','.'] ∈ text.splitOn '/' → root.clean = [Path.slash]) ∧
    ('\\' ∈ text → ∃ name, .name name ∈ Path.components p.clean ∧
      '\\' ∈ Utf8.decodeLossy name) := by
  obtain ⟨names,valid,shape⟩ := absoluteShape absolute below
  have segments : ∀ name ∈ names, Path.IsSegment name := fun name mem => (valid name mem).1
  refine ⟨⟨RelativePath.normalSpelled,fun ⟨noBackslash,noClimb⟩ => ?_⟩,fun climbs => ?_,fun mem => ?_⟩
  · rcases shape with ⟨nonempty,rfl⟩ | ⟨_,rfl⟩
    · exact (RelativePath.namesSpelled nonempty segments).mpr noBackslash
    · exact absurd (climbSplit segments) noClimb
  · rcases shape with ⟨nonempty,rfl⟩ | ⟨top,_⟩
    · exact absurd rfl (Path.belowOfNames nonempty segments _ climbs).2.2
    · exact top
  · have part : ∃ part ∈ ['.','.']::names.map Utf8.decodeLossy, '\\' ∈ part := by
      rcases shape with ⟨_,rfl⟩ | ⟨_,rfl⟩ <;>
        obtain ⟨⟨⟩⟩ | ⟨part,among,inside⟩ := Sequence.memIntercalate mem
      · exact ⟨part,List.mem_cons_of_mem _ among,inside⟩
      · exact ⟨part,among,inside⟩
    obtain ⟨part,among,inside⟩ := part
    rcases List.mem_cons.mp among with rfl | later
    · exact absurd inside (by decide)
    · obtain ⟨name,named,rfl⟩ := List.mem_map.mp later
      exact ⟨name,(valid name named).2,inside⟩

end

theorem applicationSpelled {expression target : Text}
    (found : applicationTarget? expression = some target) : '\\' ∉ target := by
  simp only [applicationTarget?,Option.bind_eq_bind,Option.bind_eq_some_iff] at found
  obtain ⟨_,_,_,_,normal⟩ := found
  exact (RelativePath.normalSpelled normal).1

theorem targetOfResolved {site : IncludeSite} {expression : Text}
    (resolved : site.resolve expression ≠ []) :
    site.target? expression = some (site.resolve expression) := by
  unfold resolve at resolved ⊢
  cases told : site.target? expression with
  | none => simp [told] at resolved
  | some target => rfl

/-- Below an absolute root, with no backslash in the root or the including file's directory: a target
is a normal form exactly if it has neither a backslash nor a climb; a backslash comes from the
expression, and not behind the directory of the application; a climb comes from a root whose clean
form is the top. -/
theorem resolveSpelled {site : IncludeSite} {expression : Text}
    (absolute : site.root.isAbsolute = true) (rootPlain : Path.backslash ∉ site.root)
    (folderPlain : Path.backslash ∉ site.folder) (resolved : site.resolve expression ≠ []) :
    let target := site.resolve expression
    (normalize target = some target ↔ '\\' ∉ target ∧ ['.','.'] ∉ target.splitOn '/') ∧
    ('\\' ∈ target → '\\' ∈ expression ∧ applicationTarget? (Text.trim expression) = none) ∧
    (['.','.'] ∈ target.splitOn '/' → site.root.clean = [Path.slash]) := by
  intro target
  have told : site.target? expression = some target := targetOfResolved resolved
  obtain ⟨literal,ends,leads⟩ := targetLeads told
  generalize target = target at told leads
  cases leads with
  | application normal =>
    have spelled := RelativePath.normalSpelled normal
    exact ⟨⟨fun _ => spelled,fun _ => RelativePath.normalizeNormal normal⟩,
      fun mem => absurd mem spelled.1,fun climbs => absurd climbs spelled.2⟩
  | @below base part target start inside found =>
    have plain : Path.backslash ∉ base := by rcases start with rfl | rfl <;> assumption
    obtain ⟨normal,climb,named⟩ := belowSpelled absolute found
    refine ⟨normal,fun mem => ⟨?_,Option.eq_none_iff_forall_ne_some.mpr fun other known => ?_⟩,climb⟩
    · obtain ⟨name,among,has⟩ := named mem
      have written := ends.literalInside (inside (backslashInside plain among has))
      exact (Text.trimInfix expression).subset written
    · have same : site.target? expression = some other := by
        rw [target?,known,Option.some_or,Option.some_or]
      cases same.symm.trans told
      exact applicationSpelled known mem

/- Dots and repeated slashes in the string are gone from the target. -/
theorem dotsSpelled :
    let site : IncludeSite := ⟨Path.ofText "/srv/project/app".toList,Path.ofText "/srv/project".toList,
      fun _ => false⟩
    let expression := "__DIR__ . '/../lib//./cart.php'".toList
    site.root.isAbsolute = true ∧ Path.backslash ∉ site.root ∧ Path.backslash ∉ site.folder ∧
    site.resolve expression = "lib/cart.php".toList ∧
    normalize (site.resolve expression) = some (site.resolve expression) := by
  intro site expression
  have absolute : site.root.isAbsolute = true := by decide +kernel
  have rootPlain : Path.backslash ∉ site.root := by decide +kernel
  have folderPlain : Path.backslash ∉ site.folder := by decide +kernel
  have target : site.resolve expression = "lib/cart.php".toList := by decide +kernel
  have resolved : site.resolve expression ≠ [] := target ▸ by decide
  obtain ⟨normal,_,_⟩ := resolveSpelled absolute rootPlain folderPlain resolved
  refine ⟨absolute,rootPlain,folderPlain,target,normal.mpr ?_⟩
  rw [target]
  decide +kernel

/- A backslash in the string stays behind the including file's directory, separates segments behind
the directory of the application, and names another file when the target is selected; below a root
whose clean form is the top, a climb stays. -/
theorem backslashMisspelled :
    let site : IncludeSite := ⟨Path.ofText "/srv/project/app".toList,Path.ofText "/srv/project".toList,
      fun _ => false⟩
    let top : IncludeSite := ⟨Path.ofText "/srv".toList,Path.ofText "/srv/..".toList,fun _ => false⟩
    site.resolve "__DIR__ . '/a\\b.php'".toList = "app/a\\b.php".toList ∧
    normalize "app/a\\b.php".toList = some "app/a/b.php".toList ∧
    site.resolve "APPLICATION_PATH . '/a\\b.php'".toList = "application/a/b.php".toList ∧
    top.resolve "__DIR__ . '/../../x.php'".toList = "../x.php".toList ∧
    normalize "../x.php".toList = none := by decide +kernel

end IncludeSite
end ProjectSlice
