import Mathlib.Data.List.Basic
import ProjectSlice.Path
import ProjectSlice.Proofs.RelativePath
import ProjectSlice.Proofs.Utf8.Ascii

/-! Components of paths and their clean form. A path written from components has these components,
and a clean path is names behind one of four beginnings. Main statement: what a clean path has below
a clean root that is neither empty nor the top is names alone, so its text stays below the root. -/
namespace ProjectSlice.Path
open Sequence

def IsSegment (segment : Bytes) : Prop :=
  segment ≠ [] ∧ segment ≠ [dot] ∧ segment ≠ [dot,dot] ∧ slash ∉ segment

def Component.IsInner : Component → Prop
  | .root | .here => False
  | .up => True
  | .name bytes => IsSegment bytes

theorem innerOfSegment {segment : Bytes} (plain : slash ∉ segment) {c : Component}
    (read : innerComponent? segment = some c) : c.IsInner := by
  unfold innerComponent? at read
  split at read
  · contradiction
  · rename_i kept
    rw [not_or] at kept
    split at read
    · cases Option.some.inj read
      trivial
    · rename_i named
      cases Option.some.inj read
      exact ⟨kept.1,kept.2,named,plain⟩

theorem bytesOfInner {c : Component} (inner : c.IsInner) :
    slash ∉ c.bytes ∧ c.bytes ≠ [] ∧ c.bytes ≠ [dot] ∧ innerComponent? c.bytes = some c := by
  cases c with
  | root | here => contradiction
  | up => decide
  | name bytes =>
    obtain ⟨nonempty,notHere,notUp,plain⟩ := inner
    have kept : ¬(bytes = [] ∨ bytes = [dot]) := not_or.mpr ⟨nonempty,notHere⟩
    refine ⟨plain,nonempty,notHere,?_⟩
    rw [Component.bytes,innerComponent?,if_neg kept,if_neg notUp]

theorem innerOfNames {names : List Bytes} (valid : ∀ name ∈ names, IsSegment name) :
    ∀ c ∈ names.map Component.name, c.IsInner := by
  intro c mem
  obtain ⟨name,among,rfl⟩ := List.mem_map.mp mem
  exact valid name among

theorem splitOfInner {parts : List Component} (nonempty : parts ≠ [])
    (inner : ∀ c ∈ parts, c.IsInner) :
    ([slash].intercalate (parts.map Component.bytes)).splitOn slash = parts.map Component.bytes := by
  refine List.splitOn_intercalate slash ?_ (mt List.map_eq_nil_iff.mp nonempty)
  intro segment mem
  obtain ⟨c,among,rfl⟩ := List.mem_map.mp mem
  exact (bytesOfInner (inner c among)).1

theorem readInner {parts : List Component} (inner : ∀ c ∈ parts, c.IsInner) :
    (parts.map Component.bytes).filterMap innerComponent? = parts := by
  induction parts with
  | nil => rfl
  | cons c parts ih =>
    obtain ⟨first,rest⟩ := List.forall_mem_cons.mp inner
    rw [List.map_cons,List.filterMap_cons_some (bytesOfInner first).2.2.2,ih rest]

theorem componentsOfRooted {parts : List Component} (inner : ∀ c ∈ parts, c.IsInner) :
    components (ofComponents (.root::parts)) = .root::parts := by
  have split : segments (ofComponents (.root::parts)) =
      []::([slash].intercalate (parts.map Component.bytes)).splitOn slash := by
    unfold segments ofComponents
    rw [List.splitOn_cons_eq_if_modifyHead,if_pos (beq_self_eq_true slash)]
  have first : firstComponent? (isAbsolute (ofComponents (.root::parts))) [] = some .root := rfl
  have rest : (([slash].intercalate (parts.map Component.bytes)).splitOn slash).filterMap
      innerComponent? = parts := by
    by_cases empty : parts = []
    · subst empty
      rfl
    · rw [splitOfInner empty inner]
      exact readInner inner
  rw [components,split]
  dsimp only
  rw [first,rest]
  rfl

theorem relativeOfSplit {p : Path} {first : Bytes} {rest : List Bytes} (nonempty : first ≠ [])
    (split : segments p = first::rest) : isAbsolute p = false := by
  cases p with
  | nil => rfl
  | cons b p =>
    have other : ¬b = slash := by
      intro same
      subst same
      rw [segments,List.splitOn_cons_eq_if_modifyHead,if_pos (beq_self_eq_true slash)] at split
      exact nonempty (List.cons.inj split).1.symm
    simp [isAbsolute,other]

theorem componentsOfInner {parts : List Component} (inner : ∀ c ∈ parts, c.IsInner) :
    components (ofComponents parts) = parts := by
  cases parts with
  | nil => rfl
  | cons c parts =>
    obtain ⟨first,others⟩ := List.forall_mem_cons.mp inner
    obtain ⟨_,nonempty,notHere,read⟩ := bytesOfInner first
    have written : ofComponents (c::parts) =
        [slash].intercalate ((c::parts).map Component.bytes) := by
      cases c with
      | root => contradiction
      | here | up | name bytes => rfl
    have split : segments (ofComponents (c::parts)) = c.bytes::parts.map Component.bytes := by
      rw [written]
      exact splitOfInner (List.cons_ne_nil c parts) inner
    rw [components,split,relativeOfSplit nonempty split]
    simp only [firstComponent?,Bool.false_eq_true,if_false,if_neg notHere,read,readInner others]
    rfl

theorem segmentFree {p : Path} {segment : Bytes} (mem : segment ∈ segments p) : slash ∉ segment :=
  fun among => Bool.eq_false_iff.mp (splitFree mem slash among) (beq_self_eq_true slash)

theorem memComponents {p : Path} {c : Component} (mem : c ∈ components p) :
    c = .root ∨ c = .here ∨ c.IsInner := by
  unfold components at mem
  split at mem
  · contradiction
  · rename_i first rest split
    have plain : ∀ segment ∈ first::rest, slash ∉ segment := split ▸ fun _ => segmentFree
    obtain ⟨plainFirst,plainRest⟩ := List.forall_mem_cons.mp plain
    rcases List.mem_append.mp mem with front | later
    · rw [Option.mem_toList,firstComponent?] at front
      split at front
      · exact Or.inl (Option.some.inj front).symm
      · split at front
        · exact Or.inr (Or.inl (Option.some.inj front).symm)
        · exact Or.inr (Or.inr (innerOfSegment plainFirst front))
    · obtain ⟨segment,among,read⟩ := List.mem_filterMap.mp later
      exact Or.inr (Or.inr (innerOfSegment (plainRest segment among) read))

/-- What a clean path has in front of its names. Only a climb from the beginning leaves a `..`, and
a second climb takes it away again. -/
def cleanFronts : List (List Component) := [[],[.up],[.root],[.root,.up]]

def StandsClean (standing : List Component) : Prop :=
  ∃ front ∈ cleanFronts, ∃ names : List Bytes, (∀ name ∈ names, IsSegment name) ∧
    standing = names.map .name ++ front.reverse

theorem cleanStepStands {standing : List Component} (stands : StandsClean standing) {c : Component}
    (known : c = .root ∨ c = .here ∨ c.IsInner) : StandsClean (cleanStep standing c) := by
  obtain ⟨front,begins,names,valid,rfl⟩ := stands
  cases c with
  | root => exact ⟨[.root],by decide,[],nofun,rfl⟩
  | here => exact ⟨front,begins,names,valid,rfl⟩
  | name bytes =>
    have segment : IsSegment bytes := by simpa [Component.IsInner] using known
    exact ⟨front,begins,bytes::names,List.forall_mem_cons.mpr ⟨segment,valid⟩,rfl⟩
  | up =>
    cases names with
    | nil =>
      -- No name stands, so the climb leads from one of the four beginnings to another.
      have climbed : ∀ front ∈ cleanFronts,
          ∃ next ∈ cleanFronts, cleanStep front.reverse .up = next.reverse := by decide
      obtain ⟨next,nextBegins,same⟩ := climbed front begins
      exact ⟨next,nextBegins,[],nofun,same⟩
    | cons name names =>
      exact ⟨front,begins,names,(List.forall_mem_cons.mp valid).2,rfl⟩

theorem cleanStepsStand {standing parts : List Component} (stands : StandsClean standing)
    (known : ∀ c ∈ parts, c = .root ∨ c = .here ∨ c.IsInner) :
    StandsClean (parts.foldl cleanStep standing) := by
  induction parts generalizing standing with
  | nil => exact stands
  | cons c parts ih =>
    obtain ⟨first,rest⟩ := List.forall_mem_cons.mp known
    exact ih (cleanStepStands stands first) rest

theorem standsTurned {standing : List Component} (stands : StandsClean standing) :
    ∃ front ∈ cleanFronts, ∃ names : List Bytes,
      (∀ name ∈ names, IsSegment name) ∧ standing.reverse = front ++ names.map .name := by
  obtain ⟨front,begins,names,valid,rfl⟩ := stands
  refine ⟨front,begins,names.reverse,fun name mem => valid name (List.mem_reverse.mp mem),?_⟩
  rw [List.reverse_append,List.reverse_reverse,List.map_reverse]

theorem cleanedStands (p : Path) : StandsClean ((components p).foldl cleanStep []) :=
  cleanStepsStand ⟨[],by decide,[],nofun,rfl⟩ fun _ => memComponents

theorem componentsClean (p : Path) :
    components p.clean = ((components p).foldl cleanStep []).reverse := by
  obtain ⟨front,begins,names,valid,turned⟩ := standsTurned (cleanedStands p)
  have inner := innerOfNames valid
  have climbed : ∀ c ∈ Component.up::names.map Component.name, c.IsInner :=
    List.forall_mem_cons.mpr ⟨trivial,inner⟩
  rw [clean,turned]
  simp only [cleanFronts,List.mem_cons,List.not_mem_nil,or_false] at begins
  rcases begins with rfl | rfl | rfl | rfl
  · exact componentsOfInner inner
  · exact componentsOfInner climbed
  · exact componentsOfRooted inner
  · exact componentsOfRooted climbed

theorem cleanNames (p : Path) : ∃ front ∈ cleanFronts, ∃ names : List Bytes,
    (∀ name ∈ names, IsSegment name) ∧ components p.clean = front ++ names.map .name := by
  rw [componentsClean]
  exact standsTurned (cleanedStands p)

theorem foldNames (names : List Bytes) (standing : List Component) :
    (names.map .name).foldl cleanStep standing = (names.map .name).reverse ++ standing := by
  induction names generalizing standing with
  | nil => rfl
  | cons name names ih =>
    rw [List.map_cons,List.foldl_cons,ih,List.reverse_cons,List.append_assoc]
    rfl

theorem nameOfSegment {segment : Bytes} (valid : IsSegment segment) :
    RelativePath.IsName (Utf8.decodeLossy segment) ∧ '/' ∉ Utf8.decodeLossy segment := by
  obtain ⟨nonempty,notHere,notUp,plain⟩ := valid
  have back (t : Text) (ascii : Utf8.IsAscii t) (read : Utf8.decodeLossy segment = t) :
      segment = Utf8.encode t := by
    rw [← read] at ascii ⊢
    exact (Utf8.encodeOfAscii ascii).symm
  refine ⟨⟨?_,?_,?_⟩,?_⟩
  · exact fun read => nonempty (back [] nofun read)
  · exact fun read => notHere (back ['.'] (by simp [Utf8.IsAscii]) read)
  · exact fun read => notUp (back ['.','.'] (by simp [Utf8.IsAscii]) read)
  · exact fun mem => plain (Utf8.byteOfDecoded (by decide) mem)

theorem belowOfNames {names : List Bytes} (nonempty : names ≠ [])
    (valid : ∀ name ∈ names, IsSegment name) :
    RelativePath.LiesBelow (Text.joined ['/'] (names.map Utf8.decodeLossy)) := by
  refine RelativePath.liesBelowJoined (mt List.map_eq_nil_iff.mp nonempty) ?_
  intro text mem
  obtain ⟨name,among,rfl⟩ := List.mem_map.mp mem
  exact nameOfSegment (valid name among)

/- The root of a project ends among the names of a path, or inside the beginning of a clean path. -/
theorem restShape {front base rest : List Component} {names : List Bytes}
    (begins : front ∈ cleanFronts) (shape : front ++ names.map .name = base ++ rest) :
    ∃ (further : List Component) (behind : List Bytes), rest = further ++ behind.map .name ∧
      behind ⊆ names ∧ (further = [] ∨ base ++ further ∈ cleanFronts) := by
  rcases List.append_eq_append_iff.mp shape with ⟨inner,rfl,inside⟩ | ⟨further,rfl,rfl⟩
  · obtain ⟨before,behind,rfl,_,rfl⟩ := List.map_eq_append_iff.mp inside
    exact ⟨[],behind,rfl,List.subset_append_right before behind,.inl rfl⟩
  · exact ⟨further,names,rfl,List.Subset.refl names,.inr begins⟩

theorem frontsCut {base further : List Component} (begins : base ++ further ∈ cleanFronts) :
    further = [] ∨ base = [] ∨ (base = [.root] ∧ further = [.up]) := by
  match base with
  | [] => exact .inr (.inl rfl)
  | [c] => grind [cleanFronts]
  | c::d::base => simp_all [cleanFronts]

theorem relativeShape {base p : Path} {text : Text} (below : base.relativeTo? p.clean = some text) :
    ∃ (further : List Component) (names : List Bytes),
      (further = [] ∨ components base ++ further ∈ cleanFronts) ∧
      (∀ name ∈ names, IsSegment name ∧ Component.name name ∈ components p.clean) ∧
      further ++ names.map Component.name ≠ [] ∧
      text = Text.joined ['/']
        ((further ++ names.map Component.name).map fun c => Utf8.decodeLossy c.bytes) := by
  obtain ⟨front,begins,names,valid,shape⟩ := cleanNames p
  unfold relativeTo? at below
  split at below
  · contradiction
  · contradiction
  · rename_i rest nonempty after
    have whole := afterIff.mp after
    obtain ⟨further,behind,rfl,among,known⟩ := restShape begins (shape.symm.trans whole)
    refine ⟨further,behind,known,fun name mem => ⟨valid name (among mem),?_⟩,?_,?_⟩
    · rw [whole]
      simp [mem]
    · exact fun empty => nonempty (by rw [empty])
    · exact (Option.some.inj below).symm

theorem cleanOfComponents (p : Path) : p.clean = ofComponents (components p.clean) := by
  rw [componentsClean,clean]

theorem relativeBelow {root p : Path} {text : Text} (further : root.clean ≠ [] ∧ root.clean ≠ [slash])
    (below : root.clean.relativeTo? p.clean = some text) : RelativePath.LiesBelow text := by
  obtain ⟨front,names,known,valid,nonempty,rfl⟩ := relativeShape below
  have none : front = [] := by
    refine known.elim id fun begins => ?_
    rcases frontsCut begins with none | empty | ⟨top,_⟩
    · exact none
    · exact absurd ((cleanOfComponents root).trans (congrArg _ empty)) further.1
    · exact absurd ((cleanOfComponents root).trans (congrArg _ top)) further.2
  subst none
  rw [List.nil_append] at nonempty ⊢
  rw [List.map_map]
  exact belowOfNames (mt List.map_eq_nil_iff.mpr nonempty) fun name mem => (valid name mem).1

end ProjectSlice.Path
