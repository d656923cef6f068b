import ProjectSlice.FileTree.Listing
import ProjectSlice.Path

/-! Paths looked up in a file tree. A path is walked step by step from the top or from the working
directory; symbolic links are followed, up to a limit that keeps the walk finite. The walk ends at
a file or a directory, whose position is the path of names without links that leads there, or it
fails with one of the reasons a file system has. -/
namespace ProjectSlice

inductive Failure where
  | notFound
  | notDirectory
  | isDirectory
  | nameTooLong
  | tooManyLinks
  | nulByte
  | notUtf8
  deriving DecidableEq, Repr

namespace Failure

def message : Failure → Text
  | .notFound => "No such file or directory (os error 2)".toList
  | .notDirectory => "Not a directory (os error 20)".toList
  | .isDirectory => "Is a directory (os error 21)".toList
  | .nameTooLong => "File name too long (os error 36)".toList
  | .tooManyLinks => "Too many levels of symbolic links (os error 40)".toList
  | .nulByte => "file name contained an unexpected NUL byte".toList
  | .notUtf8 => "stream did not contain valid UTF-8".toList

end Failure

abbrev Position := List Bytes

inductive Found where
  | file (position : Position) (content : Bytes)
  | folder (position : Position) (inside : Listing)
  /-- Nothing yet, in a directory that exists: a place where a file can be made. -/
  | absent (position : Position)
  deriving DecidableEq, Repr

inductive Purpose where
  | existing
  | creating
  | resolving
  deriving DecidableEq, Repr

structure Volume where
  top : Listing
  workFolder : Position
  deriving DecidableEq, Repr

namespace Volume
open ProjectSlice.Path (slash dot)

def linkLimit : Nat := 40

def nameLimit : Nat := 255

def pathLimit : Nat := 4096

def pathOf (position : Position) : Path := slash::[slash].intercalate position

/-- Whether the path of a position is too long to be asked about, where the path without links is
built name by name. -/
def isTooDeep (purpose : Purpose) (position : Position) : Bool :=
  purpose == .resolving && pathLimit ≤ (pathOf position).length

def beyondFile (purpose : Purpose) (position : Position) (rest : List Bytes) : Failure :=
  match rest.find? fun step => step != [] && step != [dot] with
  | some name =>
    if name ≠ [dot,dot] ∧ isTooDeep purpose (position ++ [name]) then .nameTooLong
    else .notDirectory
  | none => .notDirectory

/-- The steps of a path: its segments, of which an empty one counts only at the end, where it asks
for a directory. -/
def steps (p : Path) : List Bytes :=
  (Path.segments p).filter (· ≠ []) ++ if p.getLast? = some slash then [[]] else []

/-- A walk from the directory `here`. `follow` goes on from a link, with the directory that its
target is read in and all steps still to do. In a walk for creating, the last step may be missing,
but may not ask for a directory. -/
def walkSteps (top : Listing) (purpose : Purpose)
    (follow : Position → List Bytes → Except Failure Found) :
    Position → List Bytes → Except Failure Found
  | here,[] =>
    match top.at? here with
    | some (.folder inside) => .ok (.folder here inside)
    | _ => .error .notFound
  | here,step::rest =>
    if step = [] ∨ step = [dot] then walkSteps top purpose follow here rest
    else if step = [dot,dot] then walkSteps top purpose follow here.dropLast rest
    else if purpose = .creating ∧ rest = [[]] then .error .isDirectory
    else if nameLimit < step.length ∨ isTooDeep purpose (here ++ [step]) then .error .nameTooLong
    else
      match top.at? (here ++ [step]) with
      | none =>
        if purpose = .creating ∧ rest = [] then .ok (.absent (here ++ [step])) else .error .notFound
      | some (.file content) =>
        if rest = [] then .ok (.file (here ++ [step]) content)
        else .error (beyondFile purpose (here ++ [step]) rest)
      | some (.folder _) => walkSteps top purpose follow (here ++ [step]) rest
      | some (.link target) =>
        follow (if Path.isAbsolute target then [] else here) (steps target ++ rest)

def walk (top : Listing) (purpose : Purpose) :
    (links : Nat) → Position → List Bytes → Except Failure Found
  | 0 => walkSteps top purpose fun _ _ => .error .tooManyLinks
  | links + 1 => walkSteps top purpose (walk top purpose links)

/-- What a path leads to. A path that is resolved may have any length. -/
def lookup (v : Volume) (purpose : Purpose) (p : Path) : Except Failure Found :=
  if p.contains 0 then .error .nulByte
  else if p = [] then .error .notFound
  else if purpose ≠ .resolving ∧ pathLimit ≤ p.length then .error .nameTooLong
  else walk v.top purpose linkLimit (if p.isAbsolute then [] else v.workFolder) (steps p)

def find (v : Volume) (p : Path) : Except Failure Found := v.lookup .existing p

def resolve (v : Volume) (p : Path) : Except Failure Found := v.lookup .resolving p

def canonical (v : Volume) (p : Path) : Except Failure Path :=
  match v.resolve p with
  | .ok (.file position _) | .ok (.folder position _) | .ok (.absent position) =>
    .ok (pathOf position)
  | .error failure => .error failure

def isFile (v : Volume) (p : Path) : Bool :=
  match v.find p with
  | .ok (.file _ _) => true
  | _ => false

def read (v : Volume) (p : Path) : Except Failure Bytes :=
  match v.find p with
  | .ok (.file _ content) => .ok content
  | .ok (.folder _ _) => .error .isDirectory
  | .ok (.absent _) => .error .notFound
  | .error failure => .error failure

end Volume
end ProjectSlice
