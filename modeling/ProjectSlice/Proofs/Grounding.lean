import ProjectSlice.Proofs.ClassIndex
import ProjectSlice.Proofs.Dependency
import ProjectSlice.Proofs.Extraction
import ProjectSlice.Proofs.Session

/-! Dependencies of a session. The state that a session has published is that of one scan, so its
index leads to files of that scan alone, whatever the tree has become since. No name behind a prefix
is denied, since no denied name begins with one. Main statement: a dependency is a file of the
published scan outside the selection, found under a name that the index gives it. -/
namespace ProjectSlice

namespace Dependency

/- No beginning of a framework's names and no builtin name meets a prefix. -/
theorem allowedBehindStem {stem : Text} (usual : stem ∈ retryStems) (name : Text) :
    isDenied (stem ++ name) = false := by
  have builtins : ∀ builtin ∈ builtinNames, ∀ stem ∈ retryStems, ¬stem <+: builtin := by
    decide +kernel
  have frameworks : ∀ stem ∈ retryStems, ∀ owned ∈ frameworkStems,
      ¬stem <+: owned ∧ ¬owned <+: stem := by decide
  rw [isDenied,Bool.or_eq_false_iff,List.any_eq_false]
  constructor
  · rw [List.contains_eq_mem,decide_eq_false_iff_not]
    exact fun mem => builtins _ mem stem usual (List.prefix_append stem name)
  · intro owned mem own
    have begins : owned <+: stem ++ name := List.isPrefixOf_iff_prefix.mp own
    rcases List.prefix_or_prefix_of_prefix begins (List.prefix_append stem name) with less | more
    · exact (frameworks stem usual owned mem).2 less
    · exact (frameworks stem usual owned mem).1 more

theorem allowedOfTried {index : ClassIndex} {name tried : Text} (allowed : isDenied name = false)
    (mem : tried ∈ Analysis.namesTried index name) : isDenied tried = false := by
  unfold Analysis.namesTried at mem
  split at mem
  · rw [List.mem_singleton.mp mem]
    exact allowed
  · obtain ⟨stem,usual,rfl⟩ := List.mem_map.mp mem
    exact allowedBehindStem (List.mem_map_of_mem usual) name

end Dependency

namespace Analysis

theorem dependencyOfReference {v : Volume} {kinds : List ReferenceKind} {index : ClassIndex}
    {root : Path} {withIncludes : Bool} {selected : List Text} {d : Dependency}
    (mem : d ∈ (resolve v kinds index root withIncludes selected).dependencies) :
    d.file ∉ selected ∧ index.fileFor? d.className = some d.file ∧
      isDenied d.className = false ∧ d.referencedBy ∈ selected := by
  obtain ⟨outside,before,after,whole,_⟩ := memDependencies.mp mem
  have hit : d ∈ trail (Reference.ofFile v kinds) index root selected := by simp [whole]
  obtain ⟨source,inside,found,extracted,reference,among,hit⟩ := memTrail.mp hit
  obtain ⟨tried,known,_,own⟩ := memHitsOf.mp hit
  rw [Reference.ofFile] at extracted
  cases read : SourceText.read v (root.join (Path.ofText source)) with
  | error failure =>
    rw [read] at extracted
    cases extracted
  | ok text =>
    rw [read] at extracted
    cases extracted
    have allowed := (Reference.extractCounts among).2
    exact ⟨outside,known,Dependency.allowedOfTried allowed tried,own ▸ inside⟩

theorem noDependencies {index : ClassIndex} {selected : List Text}
    (covered : ∀ c p, index.fileFor? c = some p → p ∈ selected) (v : Volume)
    (kinds : List ReferenceKind) (root : Path) (withIncludes : Bool) :
    (resolve v kinds index root withIncludes selected).dependencies = [] := by
  rw [List.eq_nil_iff_forall_not_mem]
  intro d mem
  obtain ⟨outside,known,_⟩ := dependencyOfReference mem
  exact outside (covered _ _ known)

end Analysis

namespace Session

theorem publishedScanned {start : Settings} {past : List Event} {state : ProjectState}
    (published : publishedAfter start past = some state) :
    ∃ v root settings, freshScan settings v root = .ok state := by
  obtain ⟨⟨before,v,operation⟩,_,scanned⟩ :=
    List.mem_filterMap.mp (List.mem_of_getLast? published)
  cases operation with
  | scan root =>
    refine ⟨v,root,settingsAfter start before,?_⟩
    unfold published? at scanned
    dsimp only at scanned
    cases fresh : freshScan (settingsAfter start before) v root with
    | error failure =>
      rw [fresh] at scanned
      cases scanned
    | ok found =>
      rw [fresh] at scanned
      exact congrArg Except.ok (Option.some.inj scanned)
  | setFramework framework | setMappings mappings | settings | current => cases scanned
  | analyze selected withIncludes => cases scanned

theorem indexedFileListed {start : Settings} {past : List Event} {state : ProjectState}
    (published : publishedAfter start past = some state) {c p : Text}
    (found : state.index.fileFor? c = some p) : p ∈ state.relativePaths := by
  obtain ⟨v,root,settings,fresh⟩ := publishedScanned published
  obtain ⟨_,index,_,_⟩ := ProjectState.scanIff.mp fresh
  rw [index] at found
  obtain ⟨file,mem,rfl,_⟩ := ClassIndex.fileForSource found
  exact List.mem_map_of_mem mem

/-- Whatever has become of the tree, an analysis depends on files of the published scan alone, each
outside the selection, under an allowed name of its index, and on account of a selected file. So
nothing is left to depend on once every file of the scan is selected. -/
theorem dependenciesGrounded (kinds : List ReferenceKind) (start : Settings) (events : List Event)
    (v : Volume) (selected : List Text) (withIncludes : Bool) :
    let session := (run kinds (Session.start start) events).1
    let outcome := session.analyze v kinds selected withIncludes
    (∀ analysis, outcome = .ok analysis → ∃ state, session.current = some state ∧
      ∀ d ∈ analysis.dependencies,
        d.file ∈ state.relativePaths ∧ d.file ∉ selected ∧
        state.index.fileFor? d.className = some d.file ∧ isDenied d.className = false ∧
        d.referencedBy ∈ selected) ∧
    ∀ state, session.current = some state → state.relativePaths ⊆ selected →
      selected = [] ∧ outcome = .error .emptySelection ∨
      ∃ analysis, outcome = .ok analysis ∧ analysis.dependencies = [] := by
  have whole : (run kinds (Session.start start) events).1 = sessionAfter start events :=
    congrArg Prod.fst (runAfter [] events)
  rw [whole]
  constructor
  · intro analysis ok
    obtain ⟨state,published,_,rfl⟩ := analyzeIff.mp ok
    refine ⟨state,published,fun d mem => ?_⟩
    obtain ⟨outside,known,allowed,own⟩ := Analysis.dependencyOfReference mem
    exact ⟨indexedFileListed published known,outside,known,allowed,own⟩
  · intro state published covered
    by_cases empty : selected = []
    · left
      refine ⟨empty,(analyzeAfter kinds start events v selected withIncludes).2.mpr ⟨?_,empty⟩⟩
      exact Option.ne_none_iff_exists'.mpr ⟨state,published⟩
    · right
      have known : ∀ c p, state.index.fileFor? c = some p → p ∈ selected :=
        fun c p found => covered (indexedFileListed published found)
      exact ⟨_,analyzeIff.mpr ⟨state,published,empty,rfl⟩,
        Analysis.noDependencies known v kinds state.root withIncludes⟩

/- A tree with one class below `models` and a file that uses it under its bare name. -/
def garage (models : Listing) : Volume :=
  let name (s : String) : Bytes := Path.ofText s.toList
  let main := Path.ofText "<?php\n$car = new Car();\n".toList
  ⟨.folder (name "application") (.folder (name "models") models (.file (name "run.php") main .empty))
    .empty,[]⟩

/- The scan has found the class; by the time of the analyses its file is gone. -/
theorem goneClassGrounded :
    let declared := garage (.file (Path.ofText "Car.php".toList) [] .empty)
    let session := (run ReferenceKind.all (Session.start Settings.default)
      [⟨declared,.scan (Path.ofText "/".toList)⟩]).1
    let car : Dependency := ⟨"Model_Car".toList,"application/models/Car.php".toList,.instantiation,
      "application/run.php".toList⟩
    session.analyze (garage .empty) ReferenceKind.all [car.referencedBy] false = .ok ⟨[car],[]⟩ ∧
    (∃ state, session.current = some state ∧ car.file ∈ state.relativePaths ∧
      state.relativePaths ⊆ [car.referencedBy,car.file]) ∧
    ∃ analysis, session.analyze (garage .empty) ReferenceKind.all [car.referencedBy,car.file] false =
      .ok analysis ∧ analysis.dependencies = [] := by
  intro declared session car
  have found : session.analyze (garage .empty) ReferenceKind.all [car.referencedBy] false =
      .ok ⟨[car],[]⟩ := by decide +kernel
  have paths : session.current.map ProjectState.relativePaths =
      some [car.file,car.referencedBy] := by decide +kernel
  obtain ⟨state,published,listed⟩ := Option.map_eq_some_iff.mp paths
  have covered : state.relativePaths ⊆ [car.referencedBy,car.file] := by simp [listed]
  obtain ⟨other,current,grounded⟩ :=
    (dependenciesGrounded _ _ _ _ _ false).1 _ found
  rcases (dependenciesGrounded _ _ _ (garage .empty) _ false).2 state published covered with
    ⟨empty,_⟩ | all
  · cases empty
  · cases published.symm.trans current
    exact ⟨found,⟨state,published,(grounded car List.mem_cons_self).1,covered⟩,all⟩

end Session
end ProjectSlice
