import ProjectSlice.Text.Utf8

/-! File trees. A directory is a listing: its entries one behind the other, each a regular file, a
symbolic link or a directory with a listing of its own. Listings come in any order; `sorted` puts
every level into the byte order of the names. Main statements: sorting a listing keeps its names,
and `set` changes the entry of one name and of no other. -/
namespace ProjectSlice

inductive Listing where
  | empty
  | file (name : Bytes) (content : Bytes) (rest : Listing)
  | link (name : Bytes) (target : Bytes) (rest : Listing)
  | folder (name : Bytes) (inside : Listing) (rest : Listing)
  deriving DecidableEq, Repr

inductive Entry where
  | file (content : Bytes)
  | link (target : Bytes)
  | folder (inside : Listing)
  deriving DecidableEq, Repr

namespace Listing

def add (name : Bytes) : Entry → Listing → Listing
  | .file content,rest => .file name content rest
  | .link target,rest => .link name target rest
  | .folder inside,rest => .folder name inside rest

def names : Listing → List Bytes
  | .empty => []
  | .file name _ rest | .link name _ rest | .folder name _ rest => name::names rest

def find? (name : Bytes) : Listing → Option Entry
  | .empty => none
  | .file n content rest => if n = name then some (.file content) else find? name rest
  | .link n target rest => if n = name then some (.link target) else find? name rest
  | .folder n inside rest => if n = name then some (.folder inside) else find? name rest

def at? : List Bytes → Listing → Option Entry
  | [],l => some (.folder l)
  | name::names,l =>
    match l.find? name with
    | some (.folder inside) => at? names inside
    | some entry => if names = [] then some entry else none
    | none => none

def ValidName (name : Bytes) : Prop :=
  name ≠ [] ∧ name ≠ [46] ∧ name ≠ [46,46] ∧ 47 ∉ name ∧ 0 ∉ name

/-- A listing that a file system can hold: valid names, and no name twice in one directory. -/
def WellFormed : Listing → Prop
  | .empty => True
  | .file name _ rest | .link name _ rest => ValidName name ∧ name ∉ rest.names ∧ WellFormed rest
  | .folder name inside rest =>
    ValidName name ∧ name ∉ rest.names ∧ WellFormed inside ∧ WellFormed rest

def insertSorted (name : Bytes) (entry : Entry) : Listing → Listing
  | .empty => add name entry .empty
  | .file n content rest =>
    if name ≤ n then add name entry (.file n content rest)
    else .file n content (insertSorted name entry rest)
  | .link n target rest =>
    if name ≤ n then add name entry (.link n target rest)
    else .link n target (insertSorted name entry rest)
  | .folder n inside rest =>
    if name ≤ n then add name entry (.folder n inside rest)
    else .folder n inside (insertSorted name entry rest)

def sorted : Listing → Listing
  | .empty => .empty
  | .file name content rest => insertSorted name (.file content) (sorted rest)
  | .link name target rest => insertSorted name (.link target) (sorted rest)
  | .folder name inside rest => insertSorted name (.folder (sorted inside)) (sorted rest)

def set (name : Bytes) (entry : Entry) : Listing → Listing
  | .empty => add name entry .empty
  | .file n content rest =>
    if n = name then add name entry rest else .file n content (set name entry rest)
  | .link n target rest =>
    if n = name then add name entry rest else .link n target (set name entry rest)
  | .folder n inside rest =>
    if n = name then add name entry rest else .folder n inside (set name entry rest)

def erase (name : Bytes) : Listing → Listing
  | .empty => .empty
  | .file n content rest => if n = name then rest else .file n content (erase name rest)
  | .link n target rest => if n = name then rest else .link n target (erase name rest)
  | .folder n inside rest => if n = name then rest else .folder n inside (erase name rest)

def setAt : List Bytes → Entry → Listing → Listing
  | [],_,l => l
  | [name],entry,l => l.set name entry
  | name::names,entry,l =>
    match l.find? name with
    | some (.folder inside) => l.set name (.folder (setAt names entry inside))
    | _ => l.set name (.folder (setAt names entry .empty))

def eraseAt : List Bytes → Listing → Listing
  | [],l => l
  | [name],l => l.erase name
  | name::names,l =>
    match l.find? name with
    | some (.folder inside) => l.set name (.folder (eraseAt names inside))
    | _ => l

theorem findAdd (name other : Bytes) (entry : Entry) (l : Listing) :
    (add name entry l).find? other = if name = other then some entry else l.find? other := by
  cases entry <;> rfl

theorem findSet (name other : Bytes) (entry : Entry) (l : Listing) :
    (l.set name entry).find? other = if name = other then some entry else l.find? other := by
  induction l with
  | empty => exact findAdd _ _ _ _
  | file n content rest ih =>
    by_cases same : n = name
    · simp only [set,same,if_true,findAdd,find?]; grind
    · simp only [set,same,if_false,find?,ih]; grind
  | link n target rest ih =>
    by_cases same : n = name
    · simp only [set,same,if_true,findAdd,find?]; grind
    · simp only [set,same,if_false,find?,ih]; grind
  | folder n inside rest _ ih =>
    by_cases same : n = name
    · simp only [set,same,if_true,findAdd,find?]; grind
    · simp only [set,same,if_false,find?,ih]; grind

theorem memNamesAdd {name other : Bytes} {entry : Entry} {l : Listing} :
    other ∈ (add name entry l).names ↔ other = name ∨ other ∈ l.names := by
  cases entry <;> exact List.mem_cons

theorem memNamesInsertSorted {name other : Bytes} {entry : Entry} {l : Listing} :
    other ∈ (insertSorted name entry l).names ↔ other = name ∨ other ∈ l.names := by
  induction l with
  | empty => exact memNamesAdd
  | file n content rest ih =>
    simp only [insertSorted]
    split
    · exact memNamesAdd
    · simp only [names,List.mem_cons,ih]; grind
  | link n target rest ih =>
    simp only [insertSorted]
    split
    · exact memNamesAdd
    · simp only [names,List.mem_cons,ih]; grind
  | folder n inside rest _ ih =>
    simp only [insertSorted]
    split
    · exact memNamesAdd
    · simp only [names,List.mem_cons,ih]; grind

theorem memNamesSorted {other : Bytes} {l : Listing} : other ∈ l.sorted.names ↔ other ∈ l.names := by
  induction l with
  | empty => exact Iff.rfl
  | file n content rest ih => simp only [sorted,memNamesInsertSorted,ih,names,List.mem_cons]
  | link n target rest ih => simp only [sorted,memNamesInsertSorted,ih,names,List.mem_cons]
  | folder n inside rest _ ih => simp only [sorted,memNamesInsertSorted,ih,names,List.mem_cons]

end Listing
end ProjectSlice
