import ProjectSlice.Proofs.Naming

/-! Precedence among mappings. A mapping names the paths below its directory, and two directories
have a path below them in common exactly if they are one or one of them lies below the other. Main
statement: the order of two mappings counts for such directories alone, and what the mappings in
front of others name keeps its name. -/
namespace ProjectSlice
open Sequence Text

namespace Mapping

def directory (mapping : Mapping) : Text := dropEndWhile (· == '/') mapping.folder

def IsBelow (below above : Text) : Prop := above ++ ['/'] <+: below
instance (below above) : Decidable (IsBelow below above) := by
  unfold IsBelow; infer_instance

/-- Two mappings that have no place in common: one of them has no directory at all, or neither
directory is the other one or lies below it. -/
def Apart (a b : Mapping) : Prop :=
  a.directory = [] ∨ b.directory = [] ∨
    a.directory ≠ b.directory ∧ ¬IsBelow a.directory b.directory ∧ ¬IsBelow b.directory a.directory
instance (a b) : Decidable (Apart a b) := by
  unfold Apart; infer_instance

theorem nameIff {mapping : Mapping} {path name : Text} :
    mapping.nameOf? path = some name ↔ mapping.directory ≠ [] ∧
      ∃ rest, rest ≠ [] ∧ path = mapping.directory ++ '/'::rest ∧
        name = mapping.stem ++ replaced '/' '_' rest := by
  unfold nameOf?
  rw [← directory]
  split
  · rename_i empty
    exact iff_of_false nofun fun named => named.1 empty
  · rename_i folder nonempty
    have cut (rest : Text) : after? (mapping.directory ++ ['/']) path = some rest ↔
        path = mapping.directory ++ '/'::rest := by
      rw [afterIff,List.append_assoc,List.singleton_append]
    constructor
    · intro found
      split at found
      · contradiction
      · contradiction
      · rename_i rest further begins
        cases found
        exact ⟨nonempty,rest,further,(cut rest).mp begins,rfl⟩
    · rintro ⟨_,rest,further,begins,rfl⟩
      rw [(cut rest).mpr begins]
      obtain ⟨c,others,rfl⟩ := List.exists_cons_of_ne_nil further
      rfl

theorem placeBelow {mapping : Mapping} {path name : Text} (named : mapping.nameOf? path = some name) :
    IsBelow path mapping.directory := by
  obtain ⟨_,rest,_,rfl,_⟩ := nameIff.mp named
  exact ⟨rest,by rw [List.append_assoc,List.singleton_append]⟩

theorem belowOrSame {a b path : Text} (belowA : IsBelow path a) (belowB : IsBelow path b) :
    a = b ∨ IsBelow a b ∨ IsBelow b a := by
  unfold IsBelow at *
  rcases List.prefix_or_prefix_of_prefix belowA belowB with less | more
  · rcases List.prefix_concat_iff.mp less with same | inside
    · exact Or.inl (List.append_cancel_right same)
    · exact Or.inr (Or.inr inside)
  · rcases List.prefix_concat_iff.mp more with same | inside
    · exact Or.inl (List.append_cancel_right same).symm
    · exact Or.inr (Or.inl inside)

theorem namesOneOf {a b : Mapping} (apart : a.Apart b) (path : Text) :
    a.nameOf? path = none ∨ b.nameOf? path = none := by
  rw [← Option.not_isSome_iff_eq_none,← Option.not_isSome_iff_eq_none,← not_and_or]
  rintro ⟨first,second⟩
  obtain ⟨_,first⟩ := Option.isSome_iff_exists.mp first
  obtain ⟨_,second⟩ := Option.isSome_iff_exists.mp second
  rcases apart with empty | empty | ⟨other,noneAbove,noneBelow⟩
  · exact (nameIff.mp first).1 empty
  · exact (nameIff.mp second).1 empty
  · rcases belowOrSame (placeBelow first) (placeBelow second) with same | above | below
    · exact other same
    · exact noneAbove above
    · exact noneBelow below

/- A file below the deeper one of two directories is named by both. -/
theorem namesBelow {mapping : Mapping} (nonempty : mapping.directory ≠ []) {deep : Text}
    (inside : mapping.directory = deep ∨ IsBelow deep mapping.directory) :
    (mapping.nameOf? (deep ++ "/A".toList)).isSome := by
  rw [Option.isSome_iff_exists]
  rcases inside with rfl | ⟨rest,rfl⟩
  · exact ⟨_,nameIff.mpr ⟨nonempty,['A'],by decide,rfl,rfl⟩⟩
  · refine ⟨_,nameIff.mpr ⟨nonempty,rest ++ "/A".toList,by simp,?_,rfl⟩⟩
    simp

theorem placeShared {a b : Mapping} (overlap : ¬a.Apart b) :
    ∃ deep, (a.nameOf? (deep ++ "/A".toList)).isSome ∧
      (b.nameOf? (deep ++ "/A".toList)).isSome := by
  unfold Apart at overlap
  obtain ⟨first,second,meets⟩ : a.directory ≠ [] ∧ b.directory ≠ [] ∧
      (a.directory = b.directory ∨ IsBelow a.directory b.directory ∨
        IsBelow b.directory a.directory) := by
    grind
  rcases meets with same | below | above
  · exact ⟨a.directory,namesBelow first (Or.inl rfl),namesBelow second (Or.inl same.symm)⟩
  · exact ⟨a.directory,namesBelow first (Or.inl rfl),namesBelow second (Or.inr below)⟩
  · exact ⟨b.directory,namesBelow first (Or.inr above),namesBelow second (Or.inl rfl)⟩

end Mapping

namespace Framework

theorem mappedSource (mapping : Mapping) {path : Text} (last : path.getLast? = some 'A') :
    mappedName? [mapping] ("application/".toList ++ path ++ ".php".toList) =
      mapping.nameOf? path := by
  have stem : withoutExtension ("application/".toList ++ path ++ ".php".toList) =
      "application/".toList ++ path := by
    refine withoutExtensionSource (by decide) ?_
    rw [List.getLast?_append,last]
    decide
  rw [mappedName?,stem,afterAppend]
  simp

/- Each mapping sees the path below `application` alone, so it names it as it would in a list of its
own. -/
theorem mappedEach (mappings : List Mapping) (path : Text) :
    mappedName? mappings path = mappings.findSome? fun mapping => mappedName? [mapping] path := by
  unfold mappedName?
  cases after? "application/".toList (withoutExtension path) with
  | none => exact (List.findSome?_eq_none_iff.mpr fun _ _ => rfl).symm
  | some rest => simp

theorem mappedSwap {a b : Mapping} (apart : a.Apart b) (front rest : List Mapping) (path : Text) :
    mappedName? (front ++ a::b::rest) path = mappedName? (front ++ b::a::rest) path := by
  unfold mappedName?
  cases after? "application/".toList (withoutExtension path) with
  | none => rfl
  | some below =>
    simp only [bind,Option.bind_some,List.findSome?_append,List.findSome?_cons]
    rcases Mapping.namesOneOf apart below with none | none
    · rw [none]
    · rw [none]

end Framework

theorem ClassIndex.buildSwap {a b : Mapping} (apart : a.Apart b) (front rest : List Mapping)
    (v : Volume) (framework : Framework) (files : List SourceFile) :
    build v framework (front ++ a::b::rest) files =
      build v framework (front ++ b::a::rest) files := by
  have same (path : Text) : framework.nameOf? (front ++ a::b::rest) path =
      framework.nameOf? (front ++ b::a::rest) path := by
    cases framework with
    | zf1 => exact Framework.mappedSwap apart front rest path
    | cakephp | laravel => rfl
  refine buildAlike fun file _ => ?_
  rw [SourceFile.className?,SourceFile.className?,same]

namespace Mapping
open Framework (mappedName?)

/-- Two mappings next to each other can change places, in every list and for every path and index,
if they have no place in common; otherwise some path is named by both. The first mapping that names
a path gives its name, whatever follows. -/
theorem orderOfOverlapping :
    (∀ a b : Mapping, a.Apart b → ∀ front rest : List Mapping,
      (∀ path, mappedName? (front ++ a::b::rest) path = mappedName? (front ++ b::a::rest) path) ∧
      (∀ v framework files, ClassIndex.build v framework (front ++ a::b::rest) files =
        ClassIndex.build v framework (front ++ b::a::rest) files) ∧
      ∀ v root framework,
        (ProjectState.scan v root framework (front ++ a::b::rest)).map ProjectState.index =
          (ProjectState.scan v root framework (front ++ b::a::rest)).map ProjectState.index) ∧
    (∀ a b : Mapping, ¬a.Apart b →
      ∃ path, (mappedName? [a] path).isSome ∧ (mappedName? [b] path).isSome) ∧
    ∀ mappings path name,
      (mappedName? mappings path = some name ↔ ∃ before mapping after,
        mappings = before ++ mapping::after ∧ mappedName? [mapping] path = some name ∧
        ∀ earlier ∈ before, mappedName? [earlier] path = none) ∧
      (mappedName? mappings path = some name →
        ∀ later, mappedName? (mappings ++ later) path = some name) := by
  refine ⟨fun a b apart front rest => ⟨?_,?_,fun v root framework => ?_⟩,fun a b overlap => ?_,
    fun mappings path name => ⟨?_,fun named later => ?_⟩⟩
  · exact Framework.mappedSwap apart front rest
  · exact ClassIndex.buildSwap apart front rest
  · have given (x y : Mapping) :
        orDefaults (front ++ x::y::rest) = front ++ x::y::rest := by cases front <;> rfl
    unfold ProjectState.scan
    rw [given,given]
    cases Scan.run v root with
    | error failure => rfl
    | ok found =>
      show Except.ok _ = Except.ok _
      rw [ClassIndex.buildSwap apart]
  · obtain ⟨deep,first,second⟩ := placeShared overlap
    have last : (deep ++ "/A".toList).getLast? = some 'A' := by simp
    exact ⟨_,by rwa [Framework.mappedSource a last],by rwa [Framework.mappedSource b last]⟩
  · rw [Framework.mappedEach,List.findSome?_eq_some_iff]
  · rw [Framework.mappedEach] at named ⊢
    rw [List.findSome?_append,named,Option.some_or]

/- Two directories of which one has the other's name as the beginning of its own, and a directory
below one of them. -/
theorem longerNameApart :
    let models : Mapping := ⟨"Model_".toList,"models/".toList⟩
    let extra : Mapping := ⟨"Extra_".toList,"modelsextra//".toList⟩
    let tables : Mapping := ⟨"DbTable_".toList,"models/DbTable".toList⟩
    let car := "application/modelsextra/Car.php".toList
    let cars := "application/models/DbTable/Cars.php".toList
    models.Apart extra ∧ ¬models.Apart tables ∧
    mappedName? [tables,models,extra] car = some "Extra_Car".toList ∧
    mappedName? [tables,extra,models] car = some "Extra_Car".toList ∧
    mappedName? [models,tables] cars = some "Model_DbTable_Cars".toList ∧
    mappedName? [tables,models] cars = some "DbTable_Cars".toList := by
  intro models extra tables car cars
  have apart : models.Apart extra := by decide
  have overlap : ¬models.Apart tables := by decide
  obtain ⟨swaps,_,first⟩ := orderOfOverlapping
  have named : mappedName? [tables,models,extra] car = some "Extra_Car".toList := by decide
  have swapped := (swaps models extra apart [tables] []).1 car
  have model : mappedName? [models] cars = some "Model_DbTable_Cars".toList := by decide
  have table : mappedName? [tables] cars = some "DbTable_Cars".toList := by decide
  exact ⟨apart,overlap,named,swapped.symm.trans named,(first _ _ _).2 model [tables],
    (first _ _ _).2 table [models]⟩

end Mapping
end ProjectSlice
