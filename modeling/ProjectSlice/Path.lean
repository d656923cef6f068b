import ProjectSlice.Sequence
import ProjectSlice.Text.Utf8
import ProjectSlice.Text.Basic

/-! Paths of a file system: byte strings in which a slash separates segments. Read as components,
a path loses its empty segments and every `.` but one at the very beginning of a relative path.
`clean` removes `.` and `..` by the text alone, without asking a file system. -/
namespace ProjectSlice

abbrev Path := Bytes

namespace Path
open Sequence

def slash : UInt8 := 47

def dot : UInt8 := 46

inductive Component where
  | root
  | here
  | up
  | name (bytes : Bytes)
  deriving DecidableEq, Repr

def Component.bytes : Component → Bytes
  | .root => [slash]
  | .here => [dot]
  | .up => [dot,dot]
  | .name bytes => bytes

def isAbsolute (p : Path) : Bool := p.head? == some slash

def ofText (t : Text) : Path := Utf8.encode t

def segments (p : Path) : List Bytes := p.splitOn slash

def innerComponent? (segment : Bytes) : Option Component :=
  if segment = [] ∨ segment = [dot] then none
  else if segment = [dot,dot] then some .up
  else some (.name segment)

/-- The component that the first segment of a path stands for: nothing in front of the first slash
is the root, and a `.` counts. -/
def firstComponent? (absolute : Bool) (segment : Bytes) : Option Component :=
  if absolute then some .root
  else if segment = [dot] then some .here
  else innerComponent? segment

def components (p : Path) : List Component :=
  match segments p with
  | [] => []
  | first::rest => (firstComponent? p.isAbsolute first).toList ++ rest.filterMap innerComponent?

def ofComponents : List Component → Path
  | [] => []
  | .root::rest => slash::[slash].intercalate (rest.map Component.bytes)
  | parts => [slash].intercalate (parts.map Component.bytes)

def join (base p : Path) : Path :=
  if p.isAbsolute then p
  else if base = [] ∨ base.getLast? = some slash then base ++ p
  else base ++ slash::p

def parent? (p : Path) : Option Path :=
  match (components p).reverse with
  | [] | [.root] => none
  | _::front => some (ofComponents front.reverse)

/-- One component taken into a cleaned path, the last component first: `..` removes whatever
component stands last, and stays when none does. -/
def cleanStep (standing : List Component) : Component → List Component
  | .root => [.root]
  | .here => standing
  | .up =>
    match standing with
    | [] => [.up]
    | [.root] => [.up,.root]
    | _::below => below
  | .name bytes => .name bytes::standing

def clean (p : Path) : Path := ofComponents ((components p).foldl cleanStep []).reverse

/-- What is left of `p` below `root`, its components read leniently and joined by slashes; nothing
when `p` does not begin with all components of `root` or is the root itself. -/
def relativeTo? (root p : Path) : Option Text :=
  match after? (components root) (components p) with
  | none | some [] => none
  | some rest => some (Text.joined ['/'] (rest.map fun c => Utf8.decodeLossy c.bytes))

end Path
end ProjectSlice
