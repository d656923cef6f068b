import ProjectSlice.FileTree.Listing

/-! Entries of file trees. A listing is either empty or an entry in front of a listing, whatever
kind of entry it is. Main statements: entries found below a directory are those found behind its
position, and sorting a tree moves its entries without changing which path leads to which. -/
namespace ProjectSlice

namespace Listing

instance (name : Bytes) : Decidable (ValidName name) := by unfold ValidName; infer_instance

def decideWellFormed : (l : Listing) → Decidable l.WellFormed
  | .empty => .isTrue trivial
  | .file name _ rest | .link name _ rest =>
    have := decideWellFormed rest
    inferInstanceAs (Decidable (ValidName name ∧ name ∉ rest.names ∧ rest.WellFormed))
  | .folder name inside rest =>
    have := decideWellFormed inside
    have := decideWellFormed rest
    inferInstanceAs
      (Decidable (ValidName name ∧ name ∉ rest.names ∧ inside.WellFormed ∧ rest.WellFormed))
instance (l : Listing) : Decidable l.WellFormed := decideWellFormed l

theorem inductionAdd {motive : Listing → Prop} (empty : motive .empty)
    (add : ∀ name entry rest, (∀ inside, entry = .folder inside → motive inside) →
      motive rest → motive (add name entry rest)) (l : Listing) : motive l := by
  induction l with
  | empty => exact empty
  | file name content rest ih => exact add name (.file content) rest (fun _ => nofun) ih
  | link name target rest ih => exact add name (.link target) rest (fun _ => nofun) ih
  | folder name inside rest ihInside ih =>
    exact add name (.folder inside) rest (fun _ same => by cases same; exact ihInside) ih

end Listing

namespace Entry
open Listing

def sorted : Entry → Entry
  | .folder inside => .folder inside.sorted
  | entry => entry

def WellFormed : Entry → Prop
  | .folder inside => inside.WellFormed
  | _ => True

def at? (names : List Bytes) : Entry → Option Entry
  | .folder inside => inside.at? names
  | entry => if names = [] then some entry else none

theorem sortedIff {found : Option Entry} {entry : Entry}
    (plain : ∀ inside, entry ≠ .folder inside) :
    found.map sorted = some entry ↔ found = some entry := by
  rcases found with _ | other
  · simp
  · cases other with
    | file content | link target => rfl
    | folder inside =>
      simp only [Option.map_some,sorted,Option.some.injEq]
      exact iff_of_false (plain inside.sorted).symm (plain inside).symm

end Entry

namespace Listing

theorem wellFormedAdd {name : Bytes} {entry : Entry} {rest : Listing} :
    (add name entry rest).WellFormed ↔
      ValidName name ∧ name ∉ rest.names ∧ entry.WellFormed ∧ rest.WellFormed := by
  cases entry <;> simp only [add,WellFormed,Entry.WellFormed,true_and]

theorem sortedAdd (name : Bytes) (entry : Entry) (rest : Listing) :
    (add name entry rest).sorted = insertSorted name entry.sorted rest.sorted := by
  cases entry <;> rfl

theorem insertSortedAdd (name n : Bytes) (entry e : Entry) (rest : Listing) :
    insertSorted name entry (add n e rest) =
      if name ≤ n then add name entry (add n e rest)
      else add n e (insertSorted name entry rest) := by
  cases e <;> rfl

theorem namesAdd (name : Bytes) (entry : Entry) (rest : Listing) :
    (add name entry rest).names = name::rest.names := by
  cases entry <;> rfl

theorem atCons (name : Bytes) (names : List Bytes) (l : Listing) :
    l.at? (name::names) = (l.find? name).bind (Entry.at? names) := by
  rw [at?]
  cases l.find? name with
  | none => rfl
  | some entry => cases entry <;> rfl

theorem atAdd (name n : Bytes) (names : List Bytes) (entry : Entry) (rest : Listing) :
    (add name entry rest).at? (n::names) =
      if name = n then entry.at? names else rest.at? (n::names) := by
  rw [atCons,atCons,findAdd]
  split <;> rfl

theorem atAppend {l inside : Listing} {p : List Bytes} (folder : l.at? p = some (.folder inside))
    (q : List Bytes) : l.at? (p ++ q) = inside.at? q := by
  induction p generalizing l with
  | nil =>
    cases Option.some.inj folder
    rfl
  | cons name p ih =>
    rw [List.cons_append,atCons]
    rw [atCons,Option.bind_eq_some_iff] at folder
    obtain ⟨entry,found,folder⟩ := folder
    rw [found,Option.bind_some]
    cases entry with
    | folder below => exact ih folder
    | file content | link target =>
      simp only [Entry.at?] at folder
      split at folder <;> cases folder

theorem folderAbove {l : Listing} {p q : List Bytes} {entry : Entry} (further : q ≠ [])
    (found : l.at? (p ++ q) = some entry) : ∃ inside, l.at? p = some (.folder inside) := by
  induction p generalizing l with
  | nil => exact ⟨l,rfl⟩
  | cons name p ih =>
    rw [List.cons_append,atCons,Option.bind_eq_some_iff] at found
    obtain ⟨first,there,found⟩ := found
    rw [atCons,there,Option.bind_some]
    cases first with
    | folder inside => exact ih found
    | file content | link target =>
      have goesOn : p ++ q ≠ [] := fun empty => further (List.append_eq_nil_iff.mp empty).2
      rw [Entry.at?,if_neg goesOn] at found
      · contradiction
      · exact nofun

theorem wellFormedFind {name : Bytes} {entry : Entry} {l : Listing} (sound : l.WellFormed)
    (found : l.find? name = some entry) : ValidName name ∧ entry.WellFormed := by
  induction l using inductionAdd with
  | empty => contradiction
  | add n e rest _ ih =>
    obtain ⟨valid,_,soundEntry,soundRest⟩ := wellFormedAdd.mp sound
    rw [findAdd] at found
    split at found
    · rename_i same
      cases Option.some.inj found
      exact ⟨same ▸ valid,soundEntry⟩
    · exact ih soundRest found

theorem wellFormedAt {names : List Bytes} {entry : Entry} {l : Listing} (sound : l.WellFormed)
    (found : l.at? names = some entry) : (∀ name ∈ names, ValidName name) ∧ entry.WellFormed := by
  induction names generalizing l with
  | nil =>
    cases Option.some.inj found
    exact ⟨nofun,sound⟩
  | cons name names ih =>
    rw [atCons,Option.bind_eq_some_iff] at found
    obtain ⟨first,there,found⟩ := found
    obtain ⟨valid,soundFirst⟩ := wellFormedFind sound there
    cases first with
    | folder inside =>
      obtain ⟨others,soundEntry⟩ := ih soundFirst found
      exact ⟨List.forall_mem_cons.mpr ⟨valid,others⟩,soundEntry⟩
    | file content | link target =>
      simp only [Entry.at?] at found
      split at found
      · rename_i last
        cases Option.some.inj found
        exact ⟨List.forall_mem_cons.mpr ⟨valid,by simp [last]⟩,soundFirst⟩
      · contradiction

theorem findInsertSorted {name other : Bytes} {entry : Entry} {l : Listing}
    (new : name ∉ l.names) :
    (insertSorted name entry l).find? other =
      if name = other then some entry else l.find? other := by
  induction l using inductionAdd with
  | empty => exact findAdd _ _ _ _
  | add n e rest _ ih =>
    rw [namesAdd,List.mem_cons,not_or] at new
    rw [insertSortedAdd]
    split
    · exact findAdd _ _ _ _
    · rw [findAdd,findAdd,ih new.2]
      grind

theorem findSorted {name : Bytes} {l : Listing} (sound : l.WellFormed) :
    l.sorted.find? name = (l.find? name).map Entry.sorted := by
  induction l using inductionAdd with
  | empty => rfl
  | add n e rest _ ih =>
    obtain ⟨_,new,_,soundRest⟩ := wellFormedAdd.mp sound
    rw [sortedAdd,findInsertSorted (fun mem => new (memNamesSorted.mp mem)),findAdd,ih soundRest]
    split <;> rfl

theorem atSorted {names : List Bytes} {l : Listing} (sound : l.WellFormed) :
    l.sorted.at? names = (l.at? names).map Entry.sorted := by
  induction names generalizing l with
  | nil => rfl
  | cons name names ih =>
    rw [atCons,atCons,findSorted sound]
    cases there : l.find? name with
    | none => rfl
    | some entry =>
      rw [Option.map_some,Option.bind_some,Option.bind_some]
      cases entry with
      | folder inside => exact ih (wellFormedFind sound there).2
      | file content | link target =>
        simp only [Entry.sorted,Entry.at?]
        split <;> rfl

def Ascending : Listing → Prop
  | .empty => True
  | .file name _ rest | .link name _ rest => (∀ n ∈ rest.names, name < n) ∧ Ascending rest
  | .folder name inside rest =>
    (∀ n ∈ rest.names, name < n) ∧ Ascending inside ∧ Ascending rest

end Listing

def Entry.Ascending : Entry → Prop
  | .folder inside => inside.Ascending
  | _ => True

namespace Listing

theorem ascendingAdd {name : Bytes} {entry : Entry} {rest : Listing} :
    (add name entry rest).Ascending ↔
      (∀ n ∈ rest.names, name < n) ∧ entry.Ascending ∧ rest.Ascending := by
  cases entry <;> simp only [add,Ascending,Entry.Ascending,true_and]

theorem insertSortedAscending {name : Bytes} {entry : Entry} {l : Listing}
    (new : name ∉ l.names) (ascendingEntry : entry.Ascending) (ascending : l.Ascending) :
    (insertSorted name entry l).Ascending := by
  induction l using inductionAdd with
  | empty => exact ascendingAdd.mpr ⟨nofun,ascendingEntry,trivial⟩
  | add n e rest _ ih =>
    rw [namesAdd,List.mem_cons,not_or] at new
    obtain ⟨below,ascendingFirst,ascendingRest⟩ := ascendingAdd.mp ascending
    rw [insertSortedAdd]
    split
    · rename_i least
      have less : name < n :=
        Decidable.byContradiction fun notLess => new.1 (List.le_antisymm least notLess)
      refine ascendingAdd.mpr ⟨?_,ascendingEntry,ascending⟩
      intro m mem
      rw [namesAdd,List.mem_cons] at mem
      rcases mem with rfl | mem
      · exact less
      · exact List.lt_trans less (below m mem)
    · rename_i greater
      refine ascendingAdd.mpr ⟨?_,ascendingFirst,ih new.2 ascendingRest⟩
      intro m mem
      rcases memNamesInsertSorted.mp mem with rfl | mem
      · exact List.not_le.mp greater
      · exact below m mem

theorem sortedAscending {l : Listing} (sound : l.WellFormed) : l.sorted.Ascending := by
  induction l using inductionAdd with
  | empty => trivial
  | add n e rest ihInside ih =>
    obtain ⟨_,new,soundEntry,soundRest⟩ := wellFormedAdd.mp sound
    rw [sortedAdd]
    refine insertSortedAscending (fun mem => new (memNamesSorted.mp mem)) ?_ (ih soundRest)
    cases e with
    | folder inside => exact ihInside inside rfl soundEntry
    | file content | link target => trivial

end Listing
end ProjectSlice
