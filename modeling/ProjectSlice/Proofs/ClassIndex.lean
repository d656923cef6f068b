import Mathlib.Data.Finset.Card
import ProjectSlice.Project

/-! What a class index records. Each file of a scan is put into both tables under its name, so a
look-up answers for the last file that was put under its key. Main statement: names lead to the last
file of their name, paths to the last name of their file, and while no path occurs twice the second
table undoes the first one. -/
namespace ProjectSlice

namespace Table
open Sequence

def keys (table : Table) : List Text := table.map Prod.fst

theorem keysPut (key value : Text) (table : Table) :
    keys (put key value table) = insertAscending key (keys table) := by
  induction table with
  | nil => rfl
  | cons entry rest ih =>
    obtain ⟨k,v⟩ := entry
    simp only [keys] at ih
    simp only [put,keys,List.map_cons,insertAscending]
    split
    · rfl
    · split
      · rename_i same
        rw [List.map_cons,same]
      · rw [List.map_cons,ih]

theorem memKeys {table : Table} {key : Text} : key ∈ keys table ↔ (table.get? key).isSome := by
  induction table with
  | nil => exact iff_of_false List.not_mem_nil (by simp [get?])
  | cons entry rest ih =>
    obtain ⟨k,v⟩ := entry
    rw [getCons,keys,List.map_cons,List.mem_cons]
    by_cases same : k = key
    · simp [same]
    · rw [if_neg same,← ih]
      exact or_iff_right (Ne.symm same)

def Ascending (table : Table) : Prop := (keys table).Pairwise (· < ·)

theorem ascendingPut {table : Table} (ascending : table.Ascending) (key value : Text) :
    (put key value table).Ascending := by
  have : Std.Antisymm fun a b : Char => ¬a < b := Std.Trichotomous.antisymm_not
  unfold Ascending
  rw [keysPut]
  exact insertAscendingSorted ascending

theorem keysNodup {table : Table} (ascending : table.Ascending) : (keys table).Nodup :=
  ascending.imp fun less same => absurd (same ▸ less) (List.lt_irrefl _)

end Table

namespace ClassIndex

section
variable {v : Volume} {framework : Framework} {mappings : List Mapping}

theorem fileForRecord (index : ClassIndex) (file : SourceFile) (c : Text) :
    (record v framework mappings index file).fileFor? c =
      if file.className? v framework mappings = some c then some file.relative
      else index.fileFor? c := by
  unfold record
  cases file.className? v framework mappings with
  | none => rfl
  | some name =>
    simp only [fileForInsert,Option.some.injEq]
    by_cases same : c = name
    · rw [if_pos same,if_pos same.symm]
    · rw [if_neg same,if_neg (Ne.symm same)]

theorem classForRecord (index : ClassIndex) (file : SourceFile) (p : Text) :
    (record v framework mappings index file).classFor? p =
      if file.relative = p then (file.className? v framework mappings).or (index.classFor? p)
      else index.classFor? p := by
  unfold record
  cases file.className? v framework mappings with
  | none => simp
  | some name =>
    simp only [classForInsert,Option.some_or]
    by_cases same : p = file.relative
    · rw [if_pos same,if_pos same.symm]
    · rw [if_neg same,if_neg (Ne.symm same)]

theorem ascendingRecord {index : ClassIndex} (ascending : index.classToFile.Ascending)
    (file : SourceFile) : (record v framework mappings index file).classToFile.Ascending := by
  unfold record
  split
  · exact Table.ascendingPut ascending _ _
  · exact ascending

theorem buildConcat (files : List SourceFile) (file : SourceFile) :
    build v framework mappings (files ++ [file]) =
      record v framework mappings (build v framework mappings files) file := by
  unfold build
  rw [List.foldl_append]
  rfl

/- An index takes nothing from the files and the mappings but the names they give. -/
theorem buildAlike {w : Volume} {others : List Mapping} {files : List SourceFile}
    (same : ∀ file ∈ files,
      file.className? v framework mappings = file.className? w framework others) :
    build v framework mappings files = build w framework others files := by
  unfold build
  refine List.foldl_ext _ _ _ fun index file mem => ?_
  rw [record,record,same file mem]

theorem fileForBuild (files : List SourceFile) (c : Text) :
    (build v framework mappings files).fileFor? c =
      ((files.filter fun file => file.className? v framework mappings = some c).getLast?).map
        SourceFile.relative := by
  induction files using List.reverseRecOn with
  | nil => rfl
  | append_singleton files file ih =>
    rw [buildConcat,fileForRecord,ih,List.filter_append]
    by_cases named : file.className? v framework mappings = some c
    · simp [named]
    · simp [named]

theorem classForBuild (files : List SourceFile) (p : Text) :
    (build v framework mappings files).classFor? p =
      ((files.filter fun file => file.relative = p).filterMap
        (·.className? v framework mappings)).getLast? := by
  induction files using List.reverseRecOn with
  | nil => rfl
  | append_singleton files file ih =>
    rw [buildConcat,classForRecord,ih,List.filter_append,List.filterMap_append]
    by_cases here : file.relative = p
    · cases named : file.className? v framework mappings <;> simp [here,named]
    · simp [here]

theorem ascendingBuild (v : Volume) (framework : Framework) (mappings : List Mapping)
    (files : List SourceFile) : (build v framework mappings files).classToFile.Ascending := by
  induction files using List.reverseRecOn with
  | nil => exact List.Pairwise.nil
  | append_singleton files file ih =>
    rw [buildConcat]
    exact ascendingRecord ih file

theorem fileForBuildIsSome {files : List SourceFile} {c : Text} :
    ((build v framework mappings files).fileFor? c).isSome ↔
      c ∈ files.filterMap (·.className? v framework mappings) := by
  rw [fileForBuild,Option.isSome_map,List.getLast?_isSome,List.mem_filterMap]
  simp [List.filter_eq_nil_iff]

theorem sizeBuild (files : List SourceFile) :
    (build v framework mappings files).size =
      (files.filterMap (·.className? v framework mappings)).toFinset.card := by
  have unique := Table.keysNodup (ascendingBuild v framework mappings files)
  have length : (build v framework mappings files).size =
      (Table.keys (build v framework mappings files).classToFile).length := (List.length_map _).symm
  rw [length,← List.toFinset_card_of_nodup unique]
  congr 1
  ext c
  rw [List.mem_toFinset,List.mem_toFinset,Table.memKeys]
  exact fileForBuildIsSome

/- Where no path occurs twice, nothing is written over what a file has recorded under its path. -/
theorem classForOwn {before after : List SourceFile} {file : SourceFile}
    (distinct : ((before ++ file::after).map SourceFile.relative).Nodup) :
    (build v framework mappings (before ++ file::after)).classFor? file.relative =
      file.className? v framework mappings := by
  have own : (before ++ file::after).filter (fun other => other.relative = file.relative) =
      [file] := by
    rw [List.map_append,List.map_cons,List.nodup_middle,List.nodup_cons,List.mem_append,
      not_or] at distinct
    have none {others : List SourceFile} (absent : file.relative ∉ others.map SourceFile.relative) :
        others.filter (fun other => other.relative = file.relative) = [] := by
      rw [List.filter_eq_nil_iff]
      intro other mem
      rw [decide_eq_true_eq]
      exact fun same => absent (same ▸ List.mem_map_of_mem mem)
    rw [List.filter_append,List.filter_cons,none distinct.1.1,none distinct.1.2]
    simp
  rw [classForBuild,own]
  cases named : file.className? v framework mappings <;> simp [named]

/- The last file of a name stands over all others of the name. -/
theorem fileForNamed {before after : List SourceFile} {file : SourceFile} {c : Text}
    (named : file.className? v framework mappings = some c) :
    (build v framework mappings (before ++ file::after)).fileFor? c = some file.relative ∨
    ∃ later ∈ after, later.className? v framework mappings = some c ∧
      (build v framework mappings (before ++ file::after)).fileFor? c = some later.relative := by
  rw [fileForBuild,List.filter_append,List.filter_cons,if_pos (decide_eq_true named),
    List.getLast?_append]
  cases last : (after.filter fun other => other.className? v framework mappings = some c).getLast? with
  | none =>
    left
    rw [List.getLast?_eq_none_iff] at last
    simp [last]
  | some later =>
    right
    obtain ⟨mem,same⟩ := List.mem_filter.mp (List.mem_of_getLast? last)
    refine ⟨later,mem,of_decide_eq_true same,?_⟩
    simp [List.getLast?_cons,last]

theorem fileForSource {files : List SourceFile} {c p : Text}
    (found : (build v framework mappings files).fileFor? c = some p) :
    ∃ file ∈ files, file.relative = p ∧ file.className? v framework mappings = some c := by
  rw [fileForBuild,Option.map_eq_some_iff] at found
  obtain ⟨file,last,same⟩ := found
  obtain ⟨mem,named⟩ := List.mem_filter.mp (List.mem_of_getLast? last)
  exact ⟨file,mem,same,of_decide_eq_true named⟩

end

/-- Names lead to the last file of their name, paths to the last name of their file. While no path
occurs twice, every named file keeps its record, also when a later file takes the name from it. -/
theorem buildTwoWay (v : Volume) (framework : Framework) (mappings : List Mapping)
    (files : List SourceFile) :
    let name (file : SourceFile) : Option Text :=
      (framework.nameOf? mappings file.relative).or (SourceText.declaredClass? v file.absolute)
    let index := build v framework mappings files
    (∀ c, index.fileFor? c =
      ((files.filter fun file => name file = some c).getLast?).map SourceFile.relative) ∧
    (∀ p, index.classFor? p =
      ((files.filter fun file => file.relative = p).filterMap name).getLast?) ∧
    index.size = (files.filterMap name).toFinset.card ∧
    index.size ≤ files.length ∧
    ((files.map SourceFile.relative).Nodup →
      (∀ c p, index.fileFor? c = some p → index.classFor? p = some c) ∧
      ∀ before file after c, files = before ++ file::after → name file = some c →
        index.classFor? file.relative = some c ∧
        (index.fileFor? c = some file.relative ∨
          ∃ later ∈ after, name later = some c ∧ index.fileFor? c = some later.relative)) := by
  refine ⟨fileForBuild files,classForBuild files,sizeBuild files,?_,fun distinct => ⟨?_,?_⟩⟩
  · rw [sizeBuild]
    exact (List.toFinset_card_le _).trans (List.length_filterMap_le _ _)
  · intro c p found
    obtain ⟨file,mem,rfl,named⟩ := fileForSource found
    obtain ⟨before,after,rfl⟩ := List.append_of_mem mem
    rw [classForOwn distinct]
    exact named
  · rintro before file after c rfl named
    exact ⟨(classForOwn distinct).trans named,fileForNamed named⟩

/- Two files of one name, of which the second takes the name from the first. -/
def namesakes : List SourceFile := [
  ⟨"app/Post.php".toList,Path.ofText "/blog/app/Post.php".toList⟩,
  ⟨"src/old/Post.php".toList,Path.ofText "/blog/src/old/Post.php".toList⟩]

theorem namesakesKeepRecords :
    let index := build ⟨.empty,[]⟩ .cakephp [] namesakes
    (namesakes.map SourceFile.relative).Nodup ∧
    index.size = 1 ∧
    index.fileFor? "Post".toList = some "src/old/Post.php".toList ∧
    index.classFor? "src/old/Post.php".toList = some "Post".toList ∧
    index.classFor? "app/Post.php".toList = some "Post".toList := by
  intro index
  have distinct : (namesakes.map SourceFile.relative).Nodup := by decide
  obtain ⟨files,_,size,_,records⟩ := buildTwoWay ⟨.empty,[]⟩ .cakephp [] namesakes
  obtain ⟨consistent,kept⟩ := records distinct
  have last : index.fileFor? "Post".toList = some "src/old/Post.php".toList :=
    (files "Post".toList).trans (by decide)
  have first := kept [] _ [_] "Post".toList rfl (by decide)
  exact ⟨distinct,size.trans (by decide),last,consistent _ _ last,first.1⟩

end ClassIndex

namespace ProjectState

theorem scanIff {v : Volume} {root : Path} {framework : Framework} {mappings : List Mapping}
    {state : ProjectState} :
    scan v root framework mappings = .ok state ↔
      Scan.run v root = .ok ⟨state.root,state.files⟩ ∧
      state.index = ClassIndex.build v framework (Mapping.orDefaults mappings) state.files ∧
      state.framework = framework ∧ state.mappings = Mapping.orDefaults mappings := by
  obtain ⟨place,files,index,framework',mappings'⟩ := state
  unfold scan
  cases Scan.run v root with
  | error failure => exact iff_of_false nofun fun listed => nomatch listed.1
  | ok found =>
    obtain ⟨place',files'⟩ := found
    constructor
    · intro ok
      cases ok
      exact ⟨rfl,rfl,rfl,rfl⟩
    · intro parts
      dsimp only at parts
      obtain ⟨listed,rfl,rfl,rfl⟩ := parts
      cases listed
      rfl

end ProjectState
end ProjectSlice
