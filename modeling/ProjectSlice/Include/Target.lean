import ProjectSlice.Path
import ProjectSlice.RelativePath

/-! The file that an include expression names. Three forms are understood, each of which has to
span the whole expression: a string behind `APPLICATION_PATH`, which lies in the directory
`application` of the root; a string behind the directory of the including file; and a string
alone, which has to name an existing file below the including file's directory or the root. Every
other expression has no target. -/
namespace ProjectSlice

structure IncludeSite where
  folder : Path
  root : Path
  isFile : Path → Bool

namespace IncludeSite
open Sequence Text

def isQuote (c : Char) : Bool := c == '\x27' || c == '\x22'

def isLiteral (c : Char) : Bool := !isQuote c && c != '$'

def quoted? : Text → Option Text
  | [] => none
  | q::t =>
    match t.span isLiteral with
    | (c::literal,[p]) => if isQuote q && isQuote p then some (c::literal) else none
    | _ => none

def appended? (t : Text) : Option Text := do
  let t ← after? ['.'] (trimStart t)
  quoted? (trimStart t)

def applicationTarget? (expression : Text) : Option Text := do
  let t ← after? "APPLICATION_PATH".toList expression
  let literal ← appended? t
  RelativePath.normalize ("application/".toList ++ literal.dropWhile (· == '/'))

def afterDirname? (expression : Text) : Option Text := do
  let t ← after? "dirname".toList expression
  let t ← after? ['('] (trimStart t)
  let t ← after? "__FILE__".toList (trimStart t)
  after? [')'] (trimStart t)

def folderTarget? (site : IncludeSite) (expression : Text) : Option Text := do
  let t ← (afterDirname? expression).or (after? "__DIR__".toList expression)
  let literal ← appended? t
  let below := literal.dropWhile RelativePath.isSeparator
  (site.root.clean).relativeTo? (site.folder.join (Path.ofText below)).clean

def existing? (site : IncludeSite) (literal : Text) (base : Path) : Option Text :=
  let candidate := (base.join (Path.ofText literal)).clean
  if site.isFile candidate then site.root.clean.relativeTo? candidate else none

def literalTarget? (site : IncludeSite) (expression : Text) : Option Text := do
  let literal ← quoted? expression
  if ".php".toList.isSuffixOf literal || literal.contains '/' then
    [site.folder,site.root].findSome? (existing? site literal)
  else none

def target? (site : IncludeSite) (expression : Text) : Option Text :=
  let e := trim expression
  ((applicationTarget? e).or (folderTarget? site e)).or (literalTarget? site e)

def resolve (site : IncludeSite) (expression : Text) : Text := (target? site expression).getD []

end IncludeSite
end ProjectSlice
