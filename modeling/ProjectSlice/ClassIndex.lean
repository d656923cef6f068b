import ProjectSlice.Sequence
import ProjectSlice.Text.Blank

/-! The class index of a project: which file a class name leads to and which class name a file
records. Both tables keep their keys in ascending order, and what is put in last stands. -/
namespace ProjectSlice

/-- Pairs of a key and a value in ascending order of the keys, each key once. -/
abbrev Table := List (Text × Text)

namespace Table

def get? (table : Table) (key : Text) : Option Text :=
  (table.find? fun entry => entry.1 == key).map Prod.snd

def put (key value : Text) : Table → Table
  | [] => [(key,value)]
  | (k,v)::rest =>
    if key < k then (key,value)::(k,v)::rest
    else if key = k then (key,value)::rest
    else (k,v)::put key value rest

theorem getCons (k v key : Text) (table : Table) :
    get? ((k,v)::table) key = if k = key then some v else get? table key := by
  by_cases same : k = key <;> simp [get?,same]

theorem getPut (table : Table) (key value other : Text) :
    get? (put key value table) other = if other = key then some value else get? table other := by
  induction table with
  | nil => rw [put,getCons]; grind
  | cons entry rest ih =>
    obtain ⟨k,v⟩ := entry
    simp only [put]
    split
    · rw [getCons]; grind
    · split
      · simp only [getCons]; grind
      · simp only [getCons,ih]; grind

end Table

structure ClassIndex where
  classToFile : Table
  fileToClass : Table
  deriving DecidableEq, Repr

namespace ClassIndex

def empty : ClassIndex := ⟨[],[]⟩

def insert (index : ClassIndex) (name file : Text) : ClassIndex :=
  ⟨index.classToFile.put name file,index.fileToClass.put file name⟩

def fileFor? (index : ClassIndex) (name : Text) : Option Text := index.classToFile.get? name

def classFor? (index : ClassIndex) (file : Text) : Option Text := index.fileToClass.get? file

def size (index : ClassIndex) : Nat := index.classToFile.length

def isEmpty (index : ClassIndex) : Bool := index.classToFile.isEmpty

theorem fileForInsert (index : ClassIndex) (name file other : Text) :
    (index.insert name file).fileFor? other =
      if other = name then some file else index.fileFor? other :=
  Table.getPut _ _ _ _

theorem classForInsert (index : ClassIndex) (name file other : Text) :
    (index.insert name file).classFor? other =
      if other = file then some name else index.classFor? other :=
  Table.getPut _ _ _ _

end ClassIndex
end ProjectSlice
