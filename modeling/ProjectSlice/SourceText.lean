import ProjectSlice.FileTree.Lookup
import ProjectSlice.Naming.Declaration

/-! Source files read as text. Bytes that are no UTF-8 never make a file unreadable; a directory
can be opened but not read. The lines at the head of a file are cut at line feeds and lose all
carriage returns at their ends. -/
namespace ProjectSlice

inductive ReadFailure where
  | opening (path : Path) (cause : Failure)
  | reading (path : Path) (cause : Failure)
  deriving DecidableEq, Repr

namespace ReadFailure

def cause : ReadFailure → Failure
  | .opening _ cause | .reading _ cause => cause

def context : ReadFailure → Text
  | .opening path _ => "failed to open ".toList ++ Utf8.decodeLossy path
  | .reading path _ => "failed to read ".toList ++ Utf8.decodeLossy path

def message (failure : ReadFailure) : Text :=
  failure.context ++ ": ".toList ++ failure.cause.message

end ReadFailure

namespace SourceText
open Sequence

/-- The content behind a path that could be opened; a directory has none. -/
def open? (v : Volume) (p : Path) : Except ReadFailure (Option Bytes) :=
  match v.find p with
  | .ok (.file _ content) => .ok (some content)
  | .ok _ => .ok none
  | .error failure => .error (.opening p failure)

def bytes (v : Volume) (p : Path) : Except ReadFailure Bytes :=
  match open? v p with
  | .ok (some content) => .ok content
  | .ok none => .error (.reading p .isDirectory)
  | .error failure => .error failure

def read (v : Volume) (p : Path) : Except ReadFailure Text :=
  (bytes v p).map Utf8.decodeLossy

def headLine (line : Bytes) : Text := dropEndWhile (· == '\r') (Utf8.decodeLossy line)

def headOf (most : Nat) (content : Bytes) : List Text :=
  ((chunks 10 content).take most).map headLine

/-- The first lines of a file, at most `most` of them; asked for none, nothing is read. -/
def head (v : Volume) (p : Path) (most : Nat) : Except ReadFailure (List Text) :=
  if most = 0 then (open? v p).map fun _ => []
  else (bytes v p).map (headOf most)

def declarationLines : Nat := 100

def declaredClass? (v : Volume) (p : Path) : Option Text :=
  match head v p declarationLines with
  | .ok lines => Declaration.ofLines? lines
  | .error _ => none

end SourceText
end ProjectSlice
