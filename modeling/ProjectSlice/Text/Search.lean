import ProjectSlice.Text.Blank

/-! Reading a line from left to right. A recogniser looks at the character before a place and at
the text from the place on, and answers what it read there together with the text behind it.
`search` tries it at every place and goes on behind each thing read, so things read never overlap
and the leftmost always wins. What is read has to end where a word ends or none stands, so nothing
stands before the place where the search goes on. The room that bounds a search is the length of the
line, which is enough for a recogniser that never reads nothing. -/
namespace ProjectSlice.Text

abbrev Recogniser (α : Type) := Option Char → Text → Option (α × Text)

def searchFrom {α : Type} (read : Recogniser α) : (room : Nat) → Option Char → Text → List α
  | 0,_,_ | _,_,[] => []
  | room + 1,before,c::t =>
    match read before (c::t) with
    | some (x,rest) => x::searchFrom read room none rest
    | none => searchFrom read room (some c) t

def search {α : Type} (read : Recogniser α) (line : Text) : List α :=
  searchFrom read line.length none line

def firstFrom? {α : Type} (read : Recogniser α) : Option Char → Text → Option α
  | _,[] => none
  | before,c::t =>
    match read before (c::t) with
    | some (x,_) => some x
    | none => firstFrom? read (some c) t

def first? {α : Type} (read : Recogniser α) (line : Text) : Option α := firstFrom? read none line

def Shortens {α : Type} (read : Recogniser α) : Prop :=
  ∀ before t x rest, read before t = some (x,rest) → rest.length < t.length

end ProjectSlice.Text
