import ProjectSlice.ClassIndex
import ProjectSlice.Include.Extract
import ProjectSlice.SourceText

/-! What a selection of files depends on. Every reference of a selected file is looked up in the
class index, by its own name or, failing that, behind the usual prefixes; a file outside the
selection is recorded for the first reference that leads to it. Includes are recorded for every
selected file, whether or not they have a target. -/
namespace ProjectSlice

structure Dependency where
  className : Text
  file : Text
  kind : ReferenceKind
  referencedBy : Text
  deriving DecidableEq, Repr

structure SelectedInclude where
  found : Include
  source : Text
  deriving DecidableEq, Repr

structure Analysis where
  dependencies : List Dependency
  includes : List SelectedInclude
  deriving DecidableEq, Repr

namespace Analysis

def empty : Analysis := ⟨[],[]⟩

def isEmpty (a : Analysis) : Bool := a.dependencies.isEmpty && a.includes.isEmpty

def unresolved (a : Analysis) : List SelectedInclude :=
  a.includes.filter fun i => !i.found.isResolved

end Analysis

namespace Dependency

/-- The prefixes under which a name is looked up that the index does not know itself. -/
def retryStems : List Text :=
  List.map String.toList ["Model_","DbTable_","Service_","Parent_","Form_"]

def hits (index : ClassIndex) (name : Text) : List (Text × Text) :=
  match index.fileFor? name with
  | some file => [(name,file)]
  | none => retryStems.filterMap fun stem =>
    (index.fileFor? (stem ++ name)).map fun file => (stem ++ name,file)

end Dependency

abbrev Extractor := Path → Except ReadFailure (List Reference)

namespace Reference

def ofFile (v : Volume) (kinds : List ReferenceKind) : Extractor := fun file =>
  (SourceText.read v file).map (extract kinds)

end Reference

namespace Include

def siteOf (v : Volume) (root file : Path) : IncludeSite := ⟨file.parent?.getD root,root,v.isFile⟩

def ofFile (v : Volume) (root file : Path) : Except ReadFailure (List Include) :=
  (SourceText.read v file).map (extract (siteOf v root file))

end Include

namespace Analysis

structure Progress where
  seen : List Text
  found : Analysis
  deriving DecidableEq, Repr

def recordHit (selected : List Text) (source : Text) (kind : ReferenceKind) (progress : Progress)
    (hit : Text × Text) : Progress :=
  if selected.contains hit.2 || progress.seen.contains hit.2 then progress
  else
    ⟨hit.2::progress.seen,
      ⟨progress.found.dependencies ++ [⟨hit.1,hit.2,kind,source⟩],progress.found.includes⟩⟩

def recordReference (index : ClassIndex) (selected : List Text) (source : Text)
    (progress : Progress) (reference : Reference) : Progress :=
  (Dependency.hits index reference.className).foldl
    (recordHit selected source reference.kind) progress

def recordIncludes (v : Volume) (root : Path) (source : Text) (progress : Progress) : Progress :=
  match Include.ofFile v root (root.join (Path.ofText source)) with
  | .error _ => progress
  | .ok found =>
    ⟨progress.seen,⟨progress.found.dependencies,
      progress.found.includes ++ found.map fun i => ⟨i,source⟩⟩⟩

/-- One selected file; a file that the extractor cannot read contributes nothing. -/
def recordFile (v : Volume) (references : Extractor) (index : ClassIndex) (root : Path)
    (withIncludes : Bool) (selected : List Text) (progress : Progress) (source : Text) : Progress :=
  match references (root.join (Path.ofText source)) with
  | .error _ => progress
  | .ok found =>
    let progress := found.foldl (recordReference index selected source) progress
    if withIncludes then recordIncludes v root source progress else progress

def resolveBy (v : Volume) (references : Extractor) (index : ClassIndex) (root : Path)
    (withIncludes : Bool) (selected : List Text) : Analysis :=
  (selected.foldl (recordFile v references index root withIncludes selected) ⟨[],empty⟩).found

def resolve (v : Volume) (kinds : List ReferenceKind) (index : ClassIndex) (root : Path)
    (withIncludes : Bool) (selected : List Text) : Analysis :=
  resolveBy v (Reference.ofFile v kinds) index root withIncludes selected

end Analysis
end ProjectSlice
