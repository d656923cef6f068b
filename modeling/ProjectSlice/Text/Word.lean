import ProjectSlice.Text.Blank
import ProjectSlice.Text.WordTable

/-! Word characters. A word of a line is a longest run of them; a place in a line is a word
boundary when exactly one of the two characters around it belongs to a word. -/
namespace ProjectSlice.Text

def inRanges (n : Nat) : List (Nat × Nat) → Bool
  | [] => false
  | (first,last)::rest => if n < first then false else n ≤ last || inRanges n rest

def isWord (c : Char) : Bool :=
  if c.toNat < 0x80 then c.isAlphanum || c == '_' else inRanges c.toNat wordRanges

/-- An ASCII capital, the only characters that open a class name. -/
def isCapital (c : Char) : Bool := 'A' ≤ c && c ≤ 'Z'

theorem wordOfAlphanum {c : Char} (ascii : c.toNat < 0x80) (h : c.isAlphanum = true) :
    isWord c = true := by simp [isWord,ascii,h]

def opensWord (before : Option Char) : Bool := !before.any isWord

def spanWord (t : Text) : Text × Text := (t.takeWhile isWord,t.dropWhile isWord)

def afterBlanks? (t : Text) : Option Text :=
  match t with
  | [] => none
  | c::rest => if isBlank c then some (rest.dropWhile isBlank) else none

/-- A class word at the beginning of a text, a capital followed by at least one more word
character, and the text behind it. -/
def classWord? (t : Text) : Option (Text × Text) :=
  match spanWord t with
  | (c::d::word,rest) => if isCapital c then some (c::d::word,rest) else none
  | _ => none

end ProjectSlice.Text
