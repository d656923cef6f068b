import ProjectSlice.FileTree.Lookup
import ProjectSlice.Naming.Convention

/-! The source files below a project root. The walk goes through real directories only, leaves out
the directories of other tools and takes regular files and links to them. Each level is walked in
the byte order of its names, so the files come in the order of their paths, component by component.
The walk itself is ideal: it enters every such directory, also one whose path is longer than the limit
on paths that are looked up, where a walk by paths would find an entry that cannot be read and go on
without it. -/
namespace ProjectSlice
open Text

structure SourceFile where
  relative : Text
  absolute : Path
  deriving DecidableEq, Repr

structure Scan where
  root : Path
  files : List SourceFile
  deriving DecidableEq, Repr

inductive ScanFailure where
  | unreachable (root : Path) (cause : Failure)
  | notDirectory (root : Path)
  deriving DecidableEq, Repr

def ScanFailure.message : ScanFailure → Text
  | .unreachable root cause =>
    "project root is unreachable: ".toList ++ Utf8.decodeLossy root ++ ": ".toList ++ cause.message
  | .notDirectory root => "project root is not a directory: ".toList ++ Utf8.decodeLossy root

namespace Scan

def excludedFolders : List Bytes := List.map (fun s => Utf8.encode (String.toList s))
  ["vendor","node_modules",".git",".svn",".idea"]

/-- Whether a file name ends in the extension of source files behind at least one character. -/
def isSourceName (name : Bytes) : Bool :=
  match name.reverse.span (· != Path.dot) with
  | (extension,_::_::_) => lower (Utf8.decodeLossy extension.reverse) == sourceExtension
  | _ => false

def walk (isFile : Position → Bool) (here : Position) : Listing → List Position
  | .empty => []
  | .file name _ rest =>
    (if isSourceName name then [here ++ [name]] else []) ++ walk isFile here rest
  | .link name _ rest =>
    (if isSourceName name && isFile (here ++ [name]) then [here ++ [name]] else []) ++
      walk isFile here rest
  | .folder name inside rest =>
    (if excludedFolders.contains name then [] else walk isFile (here ++ [name]) inside) ++
      walk isFile here rest

def fileAt (root below : Position) : SourceFile :=
  ⟨joined ['/'] (below.map Utf8.decodeLossy),Volume.pathOf (root ++ below)⟩

def run (v : Volume) (root : Path) : Except ScanFailure Scan :=
  match v.resolve root with
  | .error cause => .error (.unreachable root cause)
  | .ok (.folder position inside) =>
    let isFile := fun below => v.isFile (Volume.pathOf (position ++ below))
    .ok ⟨Volume.pathOf position,(walk isFile [] inside.sorted).map (fileAt position)⟩
  | .ok (.file position _) | .ok (.absent position) => .error (.notDirectory (Volume.pathOf position))

end Scan
end ProjectSlice
