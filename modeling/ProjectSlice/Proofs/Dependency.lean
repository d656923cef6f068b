import ProjectSlice.Dependency
import ProjectSlice.Proofs.FirstOccurrence

/-! What an analysis records. The trail of a selection is every hit of every reference of its
readable files, in the order in which the files are selected, the references are extracted and the
names are tried. Main statement: the dependencies are the trail without the hits inside the
selection, of which the first one of each file is kept. -/
namespace ProjectSlice.Analysis
open Sequence

/- The names under which a class is looked up: its own where the index knows it, else five others,
whether or not the index knows them. -/
def namesTried (index : ClassIndex) (name : Text) : List Text :=
  if (index.fileFor? name).isSome then [name]
  else ["Model_","DbTable_","Service_","Parent_","Form_"].map fun stem => stem.toList ++ name

/-- The hits of one reference of the file `source`, each as the dependency it would be. -/
def hitsOf (index : ClassIndex) (source : Text) (reference : Reference) : List Dependency :=
  (namesTried index reference.className).filterMap fun name =>
    (index.fileFor? name).map fun file => ⟨name,file,reference.kind,source⟩

def hitsIn (references : Extractor) (index : ClassIndex) (root : Path) (source : Text) :
    List Dependency :=
  match references (root.join (Path.ofText source)) with
  | .error _ => []
  | .ok found => found.flatMap (hitsOf index source)

def trail (references : Extractor) (index : ClassIndex) (root : Path) (selected : List Text) :
    List Dependency :=
  selected.flatMap (hitsIn references index root)

def includesIn (v : Volume) (references : Extractor) (root : Path) (withIncludes : Bool)
    (source : Text) : List SelectedInclude :=
  match references (root.join (Path.ofText source)) with
  | .error _ => []
  | .ok _ =>
    if withIncludes then
      match Include.ofFile v root (root.join (Path.ofText source)) with
      | .error _ => []
      | .ok found => found.map fun i => ⟨i,source⟩
    else []

theorem hitsOfHits (index : ClassIndex) (source : Text) (reference : Reference) :
    hitsOf index source reference = (Dependency.hits index reference.className).map
      fun hit => ⟨hit.1,hit.2,reference.kind,source⟩ := by
  unfold hitsOf namesTried Dependency.hits
  cases known : index.fileFor? reference.className with
  | some file => simp [known]
  | none =>
    simp only [Option.isSome_none,Bool.false_eq_true,if_false,Dependency.retryStems,
      List.filterMap_map,List.map_filterMap]
    congr 1
    funext stem
    simp only [Function.comp_apply,Option.map_map]
    rfl

theorem memHitsOf {index : ClassIndex} {source : Text} {reference : Reference} {d : Dependency} :
    d ∈ hitsOf index source reference ↔ d.className ∈ namesTried index reference.className ∧
      index.fileFor? d.className = some d.file ∧ d.kind = reference.kind ∧
      d.referencedBy = source := by
  obtain ⟨className,file,kind,referencedBy⟩ := d
  rw [hitsOf,List.mem_filterMap]
  constructor
  · rintro ⟨name,tried,found⟩
    obtain ⟨_,known,same⟩ := Option.map_eq_some_iff.mp found
    cases same
    exact ⟨tried,known,rfl,rfl⟩
  · rintro ⟨tried,known,rfl,rfl⟩
    exact ⟨className,tried,Option.map_eq_some_iff.mpr ⟨file,known,rfl⟩⟩

theorem memTrail {references : Extractor} {index : ClassIndex} {root : Path} {selected : List Text}
    {d : Dependency} :
    d ∈ trail references index root selected ↔
      ∃ source ∈ selected, ∃ found, references (root.join (Path.ofText source)) = .ok found ∧
        ∃ reference ∈ found, d ∈ hitsOf index source reference := by
  rw [trail,List.mem_flatMap]
  refine exists_congr fun source => and_congr_right fun _ => ?_
  unfold hitsIn
  cases references (root.join (Path.ofText source)) with
  | error failure => simp
  | ok found => simp [List.mem_flatMap]

/- The loop's invariant: `seen` holds the files of the dependencies recorded so far, so both tests
of a hit ask about the trail behind it. -/
structure Recorded (selected : List Text) (includes : List SelectedInclude)
    (trail : List Dependency) (progress : Progress) : Prop where
  dependencies : progress.found.dependencies =
    firsts Dependency.file (trail.filter fun d => d.file ∉ selected)
  seen : ∀ file, file ∈ progress.seen ↔ file ∈ progress.found.dependencies.map Dependency.file
  includes : progress.found.includes = includes

section
variable {selected : List Text} {includes : List SelectedInclude} {trail : List Dependency}
  {progress : Progress}

theorem hitRecorded (before : Recorded selected includes trail progress) (source : Text)
    (kind : ReferenceKind) (hit : Text × Text) :
    Recorded selected includes (trail ++ [⟨hit.1,hit.2,kind,source⟩])
      (recordHit selected source kind progress hit) := by
  have seen : hit.2 ∈ progress.seen ↔
      hit.2 ∈ (trail.filter fun d => d.file ∉ selected).map Dependency.file := by
    rw [before.seen,before.dependencies,memKeysFirsts]
  unfold recordHit
  by_cases inside : hit.2 ∈ selected
  · have passed : (selected.contains hit.2 || progress.seen.contains hit.2) = true := by
      simp [inside]
    rw [if_pos passed]
    refine ⟨?_,before.seen,before.includes⟩
    rw [before.dependencies,List.filter_append]
    simp [inside]
  · have outside : (trail ++ [Dependency.mk hit.1 hit.2 kind source]).filter
          (fun d => d.file ∉ selected) =
        (trail.filter fun d => d.file ∉ selected) ++ [⟨hit.1,hit.2,kind,source⟩] := by
      simp [List.filter_append,inside]
    by_cases known : hit.2 ∈ progress.seen
    · have passed : (selected.contains hit.2 || progress.seen.contains hit.2) = true := by
        simp [known]
      rw [if_pos passed]
      refine ⟨?_,before.seen,before.includes⟩
      rw [before.dependencies,outside,firstsConcat,if_pos (seen.mp known)]
    · have new : ¬(selected.contains hit.2 || progress.seen.contains hit.2) = true := by
        simp [inside,known]
      rw [if_neg new]
      refine ⟨?_,?_,before.includes⟩
      · rw [outside,firstsConcat,if_neg (fun met => known (seen.mpr met)),before.dependencies]
      · intro file
        rw [List.mem_cons,before.seen,List.map_append,List.mem_append]
        simp [or_comm]

theorem referenceRecorded (before : Recorded selected includes trail progress)
    (index : ClassIndex) (source : Text) (reference : Reference) :
    Recorded selected includes (trail ++ hitsOf index source reference)
      (recordReference index selected source progress reference) := by
  rw [hitsOfHits,List.map_eq_flatMap]
  exact foldGrows (Recorded selected includes)
    (fun _ _ hit reached => hitRecorded reached source reference.kind hit) _ before

theorem fileRecorded (before : Recorded selected includes trail progress) (v : Volume)
    (references : Extractor) (index : ClassIndex) (root : Path) (withIncludes : Bool)
    (source : Text) :
    Recorded selected (includes ++ includesIn v references root withIncludes source)
      (trail ++ hitsIn references index root source)
      (recordFile v references index root withIncludes selected progress source) := by
  unfold recordFile hitsIn includesIn
  cases references (root.join (Path.ofText source)) with
  | error failure =>
    rw [List.append_nil,List.append_nil]
    exact before
  | ok found =>
    have reached := foldGrows (Recorded selected includes)
      (fun _ _ reference reached => referenceRecorded reached index source reference) found before
    cases withIncludes with
    | false => simpa using reached
    | true =>
      simp only [if_true,recordIncludes]
      cases Include.ofFile v root (root.join (Path.ofText source)) with
      | error failure => simpa using reached
      | ok inside => exact ⟨reached.dependencies,reached.seen,by rw [reached.includes]⟩

end

theorem selectionRecorded (v : Volume) (references : Extractor) (index : ClassIndex) (root : Path)
    (withIncludes : Bool) (selected : List Text) :
    Recorded selected (selected.flatMap (includesIn v references root withIncludes))
      (trail references index root selected)
      (selected.foldl (recordFile v references index root withIncludes selected) ⟨[],empty⟩) := by
  have start : Recorded selected ([].flatMap (includesIn v references root withIncludes))
      (trail references index root []) ⟨[],empty⟩ := ⟨rfl,fun _ => Iff.rfl,rfl⟩
  have round (done : List Text) (progress : Progress) (source : Text)
      (reached : Recorded selected (done.flatMap (includesIn v references root withIncludes))
        (trail references index root done) progress) :
      Recorded selected ((done ++ [source]).flatMap (includesIn v references root withIncludes))
        (trail references index root (done ++ [source]))
        (recordFile v references index root withIncludes selected progress source) := by
    simpa [trail] using fileRecorded reached v references index root withIncludes source
  have run := foldGrows (fun done progress => Recorded selected
    (done.flatMap (includesIn v references root withIncludes))
    (trail references index root done) progress) round selected start
  simpa using run

theorem includesOfSelection (v : Volume) (references : Extractor) (index : ClassIndex)
    (root : Path) (withIncludes : Bool) (selected : List Text) :
    (resolveBy v references index root withIncludes selected).includes =
      selected.flatMap (includesIn v references root withIncludes) :=
  (selectionRecorded v references index root withIncludes selected).includes

theorem memIncludes {v : Volume} {references : Extractor} {index : ClassIndex} {root : Path}
    {withIncludes : Bool} {selected : List Text} {i : SelectedInclude}
    (mem : i ∈ (resolveBy v references index root withIncludes selected).includes) :
    i.source ∈ selected ∧ ∃ found,
      Include.ofFile v root (root.join (Path.ofText i.source)) = .ok found ∧ i.found ∈ found := by
  rw [includesOfSelection] at mem
  obtain ⟨source,own,mem⟩ := List.mem_flatMap.mp mem
  unfold includesIn at mem
  split at mem
  · contradiction
  · split at mem
    · split at mem
      · contradiction
      · rename_i found read
        obtain ⟨i,among,rfl⟩ := List.mem_map.mp mem
        exact ⟨own,found,read,among⟩
    · contradiction

theorem dependenciesOfTrail (v : Volume) (references : Extractor) (index : ClassIndex)
    (root : Path) (withIncludes : Bool) (selected : List Text) :
    (resolveBy v references index root withIncludes selected).dependencies =
      firsts Dependency.file
        ((trail references index root selected).filter fun d => d.file ∉ selected) :=
  (selectionRecorded v references index root withIncludes selected).dependencies

theorem memDependencyFiles {v : Volume} {references : Extractor} {index : ClassIndex} {root : Path}
    {withIncludes : Bool} {selected : List Text} {file : Text} :
    file ∈ (resolveBy v references index root withIncludes selected).dependencies.map
        Dependency.file ↔
      file ∈ (trail references index root selected).map Dependency.file ∧ file ∉ selected := by
  rw [dependenciesOfTrail,memKeysFirsts]
  constructor
  · intro mem
    obtain ⟨d,kept,rfl⟩ := List.mem_map.mp mem
    obtain ⟨hit,outside⟩ := List.mem_filter.mp kept
    exact ⟨List.mem_map_of_mem hit,of_decide_eq_true outside⟩
  · rintro ⟨mem,outside⟩
    obtain ⟨d,hit,rfl⟩ := List.mem_map.mp mem
    exact List.mem_map_of_mem (List.mem_filter.mpr ⟨hit,decide_eq_true outside⟩)

theorem memDependencies {v : Volume} {references : Extractor} {index : ClassIndex} {root : Path}
    {withIncludes : Bool} {selected : List Text} {d : Dependency} :
    d ∈ (resolveBy v references index root withIncludes selected).dependencies ↔
      d.file ∉ selected ∧ ∃ before after,
        trail references index root selected = before ++ d::after ∧
        d.file ∉ before.map Dependency.file := by
  rw [dependenciesOfTrail,firstsFilter Dependency.file (fun file => decide (file ∉ selected)),
    List.mem_filter,memFirsts,decide_eq_true_eq,and_comm]

theorem trailWithout {references : Extractor} {index : ClassIndex} {root : Path} {source : Text}
    {failure : ReadFailure} (unread : references (root.join (Path.ofText source)) = .error failure)
    (before after : List Text) :
    trail references index root (before ++ source::after) =
      trail references index root (before ++ after) := by
  have none : hitsIn references index root source = [] := by simp only [hitsIn,unread]
  simp only [trail,List.flatMap_append,List.flatMap_cons,none,List.nil_append]

/-- The dependencies are exactly the first hits outside the selection, file by file. -/
theorem resolveKeepsFirstHits (v : Volume) (kinds : List ReferenceKind) (index : ClassIndex)
    (root : Path) (withIncludes : Bool) (selected : List Text) :
    let hits := trail (Reference.ofFile v kinds) index root selected
    let found := (resolve v kinds index root withIncludes selected).dependencies
    found = firsts Dependency.file (hits.filter fun d => d.file ∉ selected) ∧
    (∀ d, d ∈ found ↔ d.file ∉ selected ∧
      ∃ before after, hits = before ++ d::after ∧ d.file ∉ before.map Dependency.file) ∧
    (found.map Dependency.file).Nodup ∧
    (∀ d ∈ found, d.file ∉ selected) ∧
    (∀ d ∈ hits, d.file ∉ selected → d.file ∈ found.map Dependency.file) ∧
    ∀ before source after failure, selected = before ++ source::after →
      SourceText.read v (root.join (Path.ofText source)) = .error failure →
      hits = trail (Reference.ofFile v kinds) index root (before ++ after) ∧
      source ∉ found.map Dependency.file := by
  have exact := dependenciesOfTrail v (Reference.ofFile v kinds) index root withIncludes selected
  refine ⟨exact,fun _ => memDependencies,?_,?_,?_,?_⟩
  · unfold resolve
    rw [exact]
    exact keysFirstsNodup _ _
  · intro d mem
    exact (memDependencies.mp mem).1
  · intro d mem outside
    exact memDependencyFiles.mpr ⟨List.mem_map_of_mem mem,outside⟩
  · intro before source after failure shape unread
    have unread : Reference.ofFile v kinds (root.join (Path.ofText source)) = .error failure := by
      simp only [Reference.ofFile,unread,Except.map]
    subst shape
    refine ⟨trailWithout unread before after,?_⟩
    intro mem
    exact (memDependencyFiles.mp mem).2 (by simp)

end ProjectSlice.Analysis
