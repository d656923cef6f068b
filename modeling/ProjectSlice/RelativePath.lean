import ProjectSlice.Text.Basic

/-! Paths below a root, as texts. Both slashes separate segments; `normalize` drops empty segments
and `.`, lets `..` take the last segment that still stands, and refuses a path that climbs above
its beginning or names the beginning itself. -/
namespace ProjectSlice.RelativePath
open Text

def isSeparator (c : Char) : Bool := c == '/' || c == '\\'

def segments (path : Text) : List Text := path.splitOnP isSeparator

/-- The segments that stand at the end of a walk; the walk so far has left `standing`, the last
one first. -/
def walk : (standing : List Text) → List Text → Option (List Text)
  | standing,[] => some standing.reverse
  | standing,s::rest =>
    if s = [] ∨ s = ['.'] then walk standing rest
    else if s = ['.','.'] then
      match standing with
      | [] => none
      | _::below => walk below rest
    else walk (s::standing) rest

def normalize (path : Text) : Option Text :=
  match walk [] (segments path) with
  | none | some [] => none
  | some standing => some (joined ['/'] standing)

end ProjectSlice.RelativePath
