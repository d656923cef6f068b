import ProjectSlice.Dependency
import ProjectSlice.Project
import ProjectSlice.Settings

/-! Sessions. A session keeps the settings that the next scan uses and the state that the last
successful scan published; analyses use the published index with the files as they are by then. -/
namespace ProjectSlice

structure Session where
  settings : Settings
  current : Option ProjectState
  deriving DecidableEq, Repr

inductive SessionFailure where
  | notScanned
  | emptySelection
  deriving DecidableEq, Repr

def SessionFailure.message : SessionFailure → Text
  | .notScanned => "project not scanned yet".toList
  | .emptySelection => "no files selected".toList

namespace Session

def start (settings : Settings) : Session := ⟨settings,none⟩

def setFramework (session : Session) (framework : Framework) : Session :=
  ⟨⟨framework,session.settings.mappings⟩,session.current⟩

def setMappings (session : Session) (mappings : List Mapping) : Session :=
  ⟨⟨session.settings.framework,mappings⟩,session.current⟩

/-- A scan of a root with the session's settings: the session that has published it, or the reason
why the session stays as it is. -/
def scan (session : Session) (v : Volume) (root : Path) :
    Except ScanFailure (Session × ProjectState) :=
  match ProjectState.scan v root session.settings.framework session.settings.mappings with
  | .error failure => .error failure
  | .ok state => .ok (⟨session.settings,some state⟩,state)

def analyze (session : Session) (v : Volume) (kinds : List ReferenceKind) (selected : List Text)
    (withIncludes : Bool) : Except SessionFailure Analysis :=
  match session.current with
  | none => .error .notScanned
  | some state =>
    if selected = [] then .error .emptySelection
    else .ok (Analysis.resolve v kinds state.index state.root withIncludes selected)

end Session
end ProjectSlice
