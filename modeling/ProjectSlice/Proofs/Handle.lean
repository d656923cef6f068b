import ProjectSlice.Command.Run
import ProjectSlice.Proofs.Dependency
import ProjectSlice.Proofs.FileTree.Walk
import ProjectSlice.Proofs.Scan
import ProjectSlice.Proofs.Utf8.RoundTrip

/-! Relative paths as handles of files. A name that is no UTF-8 is listed with replacement
characters, which stand for themselves when the path is read; a backslash in a name separates
segments when the path is selected. Main statement: these two are all that keeps a listed path from
standing for its file alone, leading to it, and being selected as it is. -/
namespace ProjectSlice

def SourceFile.HasTextNames (root : Path) (file : SourceFile) : Prop :=
  ∃ names : List Text, Path.components file.absolute =
    Path.components root ++ names.map fun name => .name (Path.ofText name)

namespace Path

theorem ofTextJoined (texts : List Text) :
    ofText (Text.joined ['/'] texts) = [slash].intercalate (texts.map ofText) := by
  induction texts with
  | nil => rfl
  | cons text texts ih =>
    by_cases last : texts = []
    · subst last
      simp only [Text.joined,List.intercalate_singleton,List.map_cons,List.map_nil]
    · have further : texts.map ofText ≠ [] := mt List.map_eq_nil_iff.mp last
      rw [Text.joined,List.intercalate_cons_of_ne_nil last,List.map_cons,
        List.intercalate_cons_of_ne_nil further,← ih,ofText,Utf8.encodeAppend,Utf8.encodeAppend]
      rfl

theorem segmentOfName {name : Text} (named : RelativePath.IsName name) (plain : '/' ∉ name) :
    IsSegment (ofText name) := by
  refine ⟨?_,?_,?_,fun mem => plain (Utf8.charOfByte (by decide) mem)⟩
  · exact fun same => named.1 (Utf8.encodeInjective (t := []) same)
  · exact fun same => named.2.1 (Utf8.encodeInjective (t := ['.']) same)
  · exact fun same => named.2.2 (Utf8.encodeInjective (t := ['.','.']) same)

def reread (name : Bytes) : Bytes := ofText (Utf8.decodeLossy name)

theorem rereadIff {name : Bytes} : reread name = name ↔ ∃ text, name = ofText text := by
  constructor
  · exact fun same => ⟨_,same.symm⟩
  · rintro ⟨text,rfl⟩
    exact congrArg ofText (Utf8.decodeEncode text)

theorem segmentReread {name : Bytes} (valid : IsSegment name) : IsSegment (reread name) := by
  obtain ⟨named,plain⟩ := nameOfSegment valid
  exact segmentOfName named plain

end Path

namespace Scan
open ProjectSlice.Path (IsSegment reread)

section
variable {root below : Position}

theorem textNamesIff (valid : ∀ name ∈ root ++ below, Listing.ValidName name) :
    (fileAt root below).HasTextNames (Volume.pathOf root) ↔ below.map reread = below := by
  have above : ∀ name ∈ root, Listing.ValidName name := (List.forall_mem_append.mp valid).1
  unfold SourceFile.HasTextNames fileAt
  rw [Volume.componentsPathOf valid,Volume.componentsPathOf above,List.map_append]
  constructor
  · rintro ⟨names,same⟩
    have same : below.map Path.Component.name = (names.map Path.ofText).map .name := by
      rw [List.map_map]
      exact List.append_cancel_left (List.cons.inj same).2
    have texts : below = names.map Path.ofText :=
      List.map_injective_iff.mpr (fun _ _ => Path.Component.name.inj) same
    rw [texts,List.map_map]
    exact List.map_congr_left fun text _ => Path.rereadIff.mpr ⟨text,rfl⟩
  · intro same
    refine ⟨below.map Utf8.decodeLossy,?_⟩
    have texts : below.map Path.Component.name = (below.map reread).map .name := by rw [same]
    rw [texts,List.map_map,List.map_map]
    rfl

theorem relativeWritten (root below : Position) :
    Path.ofText (fileAt root below).relative = [Path.slash].intercalate (below.map reread) := by
  rw [fileAt,Path.ofTextJoined,List.map_map]
  rfl

theorem joinRelative (further : below ≠ []) (valid : ∀ name ∈ root ++ below, IsSegment name) :
    (Volume.pathOf root).join (Path.ofText (fileAt root below).relative) =
      Volume.pathOf (root ++ below.map reread) := by
  obtain ⟨above,inside⟩ := List.forall_mem_append.mp valid
  rw [relativeWritten]
  refine Volume.joinPathOf (mt List.map_eq_nil_iff.mp further) ?_
  refine List.forall_mem_append.mpr ⟨above,List.forall_mem_map.mpr fun name mem => ?_⟩
  exact Path.segmentReread (inside name mem)

theorem leadsIff (further : below ≠ []) (valid : ∀ name ∈ root ++ below, Listing.ValidName name) :
    (Volume.pathOf root).join (Path.ofText (fileAt root below).relative) =
        (fileAt root below).absolute ↔ (fileAt root below).HasTextNames (Volume.pathOf root) := by
  have segments : ∀ name ∈ root ++ below, IsSegment name :=
    fun name mem => Volume.segmentOfValid (valid name mem)
  obtain ⟨above,inside⟩ := List.forall_mem_append.mp segments
  have written : ∀ name ∈ root ++ below.map reread, IsSegment name :=
    List.forall_mem_append.mpr
      ⟨above,List.forall_mem_map.mpr fun name mem => Path.segmentReread (inside name mem)⟩
  have furtherRead : below.map reread ≠ [] := mt List.map_eq_nil_iff.mp further
  rw [joinRelative further segments,textNamesIff valid]
  constructor
  · intro same
    refine List.append_cancel_left (Volume.pathOfInjective ?_ ?_ written segments same)
    · exact fun empty => furtherRead (List.append_eq_nil_iff.mp empty).2
    · exact fun empty => further (List.append_eq_nil_iff.mp empty).2
  · intro same
    rw [same]
    rfl

theorem selectsIff (further : below ≠ []) (valid : ∀ name ∈ root ++ below, IsSegment name) :
    Command.normalizeSelection [(fileAt root below).relative] = [(fileAt root below).relative] ↔
      '\\' ∉ (fileAt root below).relative := by
  have names : ∀ part ∈ below.map Utf8.decodeLossy, RelativePath.IsName part ∧ '/' ∉ part :=
    List.forall_mem_map.mpr fun name mem =>
      Path.nameOfSegment (valid name (List.mem_append_right _ mem))
  rw [fileAt,← RelativePath.normalizeJoinedIff (mt List.map_eq_nil_iff.mp further) names]
  dsimp only
  rw [Command.normalizeSelection,List.filterMap_cons]
  cases RelativePath.normalize (Text.joined ['/'] (below.map Utf8.decodeLossy)) with
  | none => simp
  | some normal => simp

/- A regular file stands where its own path says; a link was listed because its path leads to a
file. -/
theorem sourceReached {v : Volume} (sound : v.top.WellFormed) (source : IsSource v root below)
    (short : v.find (Volume.pathOf (root ++ below)) ≠ .error .nameTooLong) :
    ∃ position content, v.find (Volume.pathOf (root ++ below)) = .ok (.file position content) ∧
      ∀ inside, v.top.at? (root ++ below) = some (.file inside) →
        position = root ++ below ∧ content = inside := by
  obtain ⟨further,valid⟩ := sourceNames sound source
  have nonempty : root ++ below ≠ [] := fun empty => further (List.append_eq_nil_iff.mp empty).2
  rcases source.entry with ⟨own,entry⟩ | ⟨⟨target,entry⟩,position,content,found,_⟩
  · obtain ⟨found,long⟩ := Volume.findFile nonempty valid entry
    have fits := Classical.byContradiction fun notFits => short (long notFits)
    refine ⟨_,_,found fits,fun inside there => ⟨rfl,?_⟩⟩
    cases entry.symm.trans there
    rfl
  · refine ⟨position,content,found,fun inside there => ?_⟩
    cases entry.symm.trans there

end

theorem textPlace {v : Volume} {root : Path} {found : Scan} (sound : v.top.WellFormed)
    (ok : run v root = .ok found) {file : SourceFile} (mem : file ∈ found.files)
    (texts : file.HasTextNames found.root) :
    ∃ (position below : Position) (inside : Listing),
      v.resolve root = .ok (.folder position inside) ∧ found.root = Volume.pathOf position ∧
      below ≠ [] ∧ (∀ name ∈ position ++ below, Listing.ValidName name) ∧
      file.absolute = Volume.pathOf (position ++ below) ∧
      Path.ofText file.relative = [Path.slash].intercalate below := by
  obtain ⟨position,inside,positions,there,rfl,_,listed⟩ := runPositions sound ok
  obtain ⟨below,among,rfl⟩ := List.mem_map.mp mem
  obtain ⟨further,valid⟩ := sourceNames sound ((listed below).mp among)
  refine ⟨position,below,inside,there,rfl,further,valid,rfl,?_⟩
  rw [relativeWritten,(textNamesIff valid).mp texts]

/-- The listed paths of a scan as handles of its files: each stands for its file alone and leads to
it from the root where the names are texts, and is selected as it is where it has no backslash;
where both hold, an analysis of it takes the references of the file. -/
structure Faithful (v : Volume) (found : Scan) : Prop where
  distinct : found.files.Pairwise fun f g =>
    f.HasTextNames found.root → g.HasTextNames found.root → f.relative ≠ g.relative
  leads : ∀ file ∈ found.files,
    found.root.join (Path.ofText file.relative) = file.absolute ↔ file.HasTextNames found.root
  reaches : ∀ file ∈ found.files, v.find file.absolute ≠ .error .nameTooLong →
    ∃ position content, v.find file.absolute = .ok (.file position content) ∧
      ∀ own inside, file.absolute = Volume.pathOf own → v.top.at? own = some (.file inside) →
        position = own ∧ content = inside
  selects : ∀ file ∈ found.files,
    Command.normalizeSelection [file.relative] = [file.relative] ↔ '\\' ∉ file.relative
  analyzes : ∀ file ∈ found.files, file.HasTextNames found.root → '\\' ∉ file.relative →
    ∀ (w : Volume) (kinds : List ReferenceKind) (index : ClassIndex) (withIncludes : Bool)
      (text : Text), SourceText.read w file.absolute = .ok text →
      (Analysis.resolve w kinds index found.root withIncludes
        (Command.normalizeSelection [file.relative])).dependencies =
      Sequence.firsts Dependency.file (((Reference.extract kinds text).flatMap
        (Analysis.hitsOf index file.relative)).filter fun d => d.file ∉ [file.relative])

/-- Whatever the names in a tree are, the listed paths of a scan are handles of its files. -/
theorem runFaithful {v : Volume} {root : Path} {found : Scan} (sound : v.top.WellFormed)
    (ok : run v root = .ok found) : Faithful v found := by
  obtain ⟨position,inside,positions,there,rfl,ordered,listed⟩ := runPositions sound ok
  have source {below : Position} (mem : below ∈ positions) : IsSource v position below ∧
      below ≠ [] ∧ ∀ name ∈ position ++ below, Listing.ValidName name :=
    ⟨(listed below).mp mem,sourceNames sound ((listed below).mp mem)⟩
  have nonempty {below : Position} (mem : below ∈ positions) : position ++ below ≠ [] :=
    fun empty => (source mem).2.1 (List.append_eq_nil_iff.mp empty).2
  have segments {below : Position} (mem : below ∈ positions) :
      ∀ name ∈ position ++ below, IsSegment name :=
    fun name among => Volume.segmentOfValid ((source mem).2.2 name among)
  have leads : ∀ file ∈ positions.map (fileAt position),
      (Volume.pathOf position).join (Path.ofText file.relative) = file.absolute ↔
        file.HasTextNames (Volume.pathOf position) := by
    refine List.forall_mem_map.mpr fun below mem => ?_
    obtain ⟨_,further,valid⟩ := source mem
    exact leadsIff further valid
  have selects : ∀ file ∈ positions.map (fileAt position),
      Command.normalizeSelection [file.relative] = [file.relative] ↔ '\\' ∉ file.relative := by
    refine List.forall_mem_map.mpr fun below mem => ?_
    exact selectsIff (source mem).2.1 (segments mem)
  refine ⟨?_,leads,?_,selects,?_⟩
  · rw [List.pairwise_map]
    refine ordered.imp_of_mem fun {p q} memP memQ less textsP textsQ same => ?_
    have paths : (fileAt position p).absolute = (fileAt position q).absolute := by
      rw [← (leads _ (List.mem_map_of_mem memP)).mpr textsP,
        ← (leads _ (List.mem_map_of_mem memQ)).mpr textsQ,same]
    have equal := Volume.pathOfInjective (nonempty memP) (nonempty memQ) (segments memP)
      (segments memQ) paths
    exact List.lt_irrefl p (List.append_cancel_left equal ▸ less)
  · refine List.forall_mem_map.mpr fun below mem short => ?_
    obtain ⟨place,content,found,reached⟩ := sourceReached sound (source mem).1 short
    refine ⟨place,content,found,fun own inside same stands => ?_⟩
    cases Volume.positionOfFile sound (nonempty mem) (segments mem) same stands
    exact reached inside stands
  · intro file mem texts noBackslash w kinds index withIncludes text read
    rw [(selects file mem).mpr noBackslash,Analysis.resolve,Analysis.dependenciesOfTrail]
    have hits : Analysis.trail (Reference.ofFile w kinds) index (Volume.pathOf position)
        [file.relative] = (Reference.extract kinds text).flatMap
          (Analysis.hitsOf index file.relative) := by
      rw [Analysis.trail,List.flatMap_singleton,Analysis.hitsIn,(leads file mem).mpr texts,
        Reference.ofFile,read]
      rfl
    rw [hits]

/- A word in UTF-8, the same word with two other last letters in Latin-1, a backslash, and a link. -/
def menu : Volume :=
  let name (s : String) : Bytes := Path.ofText s.toList
  let latin (letter : UInt8) : Bytes := name "caf" ++ letter::name ".php"
  let lib : Listing := .file (name "caf\u00e9.php") (name "<?php\nnew Tea();\n") .empty
  ⟨.folder (name "lib") lib (.link (name "new.php") (name "lib/caf\u00e9.php")
    (.file (latin 0xE8) [] (.file (latin 0xE9) [] (.file (name "b\\c.php") [] .empty)))),[]⟩

theorem menuFaithful :
    let file : SourceFile :=
      ⟨"lib/caf\u00e9.php".toList,Path.ofText "/lib/caf\u00e9.php".toList⟩
    menu.top.WellFormed ∧ ∃ found, run menu (Path.ofText "/".toList) = .ok found ∧
      Faithful menu found ∧ file ∈ found.files ∧ file.HasTextNames found.root ∧
      '\\' ∉ file.relative ∧
      SourceText.read menu file.absolute = .ok "<?php\nnew Tea();\n".toList := by
  intro file
  have sound : menu.top.WellFormed := by decide
  have ok : run menu (Path.ofText "/".toList) = .ok _ := rfl
  have texts : file.HasTextNames (Path.ofText "/".toList) :=
    ⟨["lib".toList,"caf\u00e9.php".toList],by decide +kernel⟩
  exact ⟨sound,_,ok,runFaithful sound ok,by decide +kernel,texts,by decide,by decide +kernel⟩

/- The two names in Latin-1 are listed as one path, which leads to neither, and the backslash is
taken for a slash. -/
theorem menuMistaken :
    ∃ found, run menu (Path.ofText "/".toList) = .ok found ∧
      ¬(found.files.map SourceFile.relative).Nodup ∧
      (∃ file ∈ found.files, found.root.join (Path.ofText file.relative) ≠ file.absolute ∧
        SourceText.read menu file.absolute = .ok [] ∧
        menu.find (found.root.join (Path.ofText file.relative)) = .error .notFound) ∧
      ∃ file ∈ found.files, file.HasTextNames found.root ∧
        Command.normalizeSelection [file.relative] = ["b/c.php".toList] ∧
        file.relative ≠ "b/c.php".toList := by
  have ok : run menu (Path.ofText "/".toList) = .ok _ := rfl
  let split : SourceFile := ⟨"b\\c.php".toList,Path.ofText "/b\\c.php".toList⟩
  have texts : split.HasTextNames (Path.ofText "/".toList) :=
    ⟨["b\\c.php".toList],by decide +kernel⟩
  exact ⟨_,ok,by decide +kernel,by decide +kernel,split,by decide +kernel,texts,by decide +kernel,
    by decide +kernel⟩

end Scan
end ProjectSlice
