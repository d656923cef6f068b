import ProjectSlice.Include.Statement
import ProjectSlice.Include.Target
import ProjectSlice.Reference.Extract

/-! The includes of a source text: for each line that is no comment, its first include statement
and the target of its expression. -/
namespace ProjectSlice
open Text

/-- An include statement of a source text; `resolved` is empty where its expression names no file
of the project. -/
structure Include where
  keyword : IncludeKeyword
  expression : Text
  resolved : Text
  line : Nat
  deriving DecidableEq, Repr

namespace Include

def isResolved (i : Include) : Bool := !i.resolved.isEmpty

def ofLine? (site : IncludeSite) (line : Text × Nat) : Option Include :=
  if isComment line.1 then none
  else (IncludeStatement.ofLine? line.1).map fun s =>
    ⟨s.keyword,s.expression,site.resolve s.expression,line.2⟩

def extract (site : IncludeSite) (source : Text) : List Include :=
  ((lines source).zipIdx 1).filterMap (ofLine? site)

end Include
end ProjectSlice
