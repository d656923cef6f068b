import ProjectSlice.Text.Basic
import ProjectSlice.Text.Word

/-! Declarations of classes, interfaces and traits. A line declares one when its words, cut at
blanks, are any number of modifiers, one of three keywords and something that begins with the
name. -/
namespace ProjectSlice.Declaration
open Text

def modifiers : List Text := ["abstract".toList,"final".toList,"readonly".toList]

def keywords : List Text := ["class".toList,"interface".toList,"trait".toList]

def parts (line : Text) : List Text := (line.splitOnP isBlank).filter (· != [])

def nameIn? : List Text → Option Text
  | part::next::rest =>
    if modifiers.contains part then nameIn? (next::rest)
    else if keywords.contains part then
      match next.takeWhile isWord with
      | [] => none
      | name => some name
    else none
  | _ => none

def ofLine? (line : Text) : Option Text := nameIn? (parts line)

def ofLines? (lines : List Text) : Option Text := lines.findSome? ofLine?

end ProjectSlice.Declaration
