import ProjectSlice.ClassIndex
import ProjectSlice.Scan
import ProjectSlice.SourceText

/-! A scanned project: its source files and the index of the classes they declare. The convention
names a file where it can; the others are named by a declaration near their top. -/
namespace ProjectSlice

def SourceFile.className? (file : SourceFile) (v : Volume) (framework : Framework)
    (mappings : List Mapping) : Option Text :=
  (framework.nameOf? mappings file.relative).or (SourceText.declaredClass? v file.absolute)

namespace ClassIndex

def record (v : Volume) (framework : Framework) (mappings : List Mapping) (index : ClassIndex)
    (file : SourceFile) : ClassIndex :=
  match file.className? v framework mappings with
  | some name => index.insert name file.relative
  | none => index

/-- The index of some files, in which a later file stands over an earlier one of the same class. -/
def build (v : Volume) (framework : Framework) (mappings : List Mapping)
    (files : List SourceFile) : ClassIndex :=
  files.foldl (record v framework mappings) empty

end ClassIndex

structure ProjectState where
  root : Path
  files : List SourceFile
  index : ClassIndex
  framework : Framework
  mappings : List Mapping
  deriving DecidableEq, Repr

namespace ProjectState

/-- A scan of the project below a root; the default mappings stand in for none. -/
def scan (v : Volume) (root : Path) (framework : Framework) (mappings : List Mapping) :
    Except ScanFailure ProjectState :=
  let mappings := Mapping.orDefaults mappings
  match Scan.run v root with
  | .error failure => .error failure
  | .ok found =>
    .ok ⟨found.root,found.files,ClassIndex.build v framework mappings found.files,framework,
      mappings⟩

def relativePaths (state : ProjectState) : List Text := state.files.map SourceFile.relative

end ProjectState
end ProjectSlice
