import ProjectSlice.Naming.Framework
import ProjectSlice.FileTree.Lookup
import ProjectSlice.Toml.Document

/-! Settings: the framework of a project and its mappings in order of precedence. They come in
layers, of which a later one stands over an earlier one: defaults, a settings file, the caller's
own choice. An empty list of mappings counts as no choice in every layer. -/
namespace ProjectSlice

structure Settings where
  framework : Framework
  mappings : List Mapping
  deriving DecidableEq, Repr

inductive SettingsFailure where
  | unreadable (path : Path) (cause : Failure)
  | invalid (path : Path)
  | badMapping (complaint : Text)
  deriving DecidableEq, Repr

namespace Settings

def default : Settings := ⟨.zf1,Mapping.defaults⟩

def isBare : Toml.Value → Bool
  | .array _ items => items.isEmpty
  | .table _ fields => fields.isEmpty
  | _ => false

/-- The framework that a value names: its word, or a table whose only field has the word for its
name and nothing for its value. -/
def frameworkOf? : Toml.Value → Option Framework
  | .string word => Framework.ofWord? word
  | .table _ [(word,value)] => if isBare value then Framework.ofWord? word else none
  | _ => none

/-- The mapping that a value describes: a table with two texts, or a list that begins with them. -/
def mappingOf? : Toml.Value → Option Mapping
  | .table _ fields =>
    match Toml.Fields.get? fields "prefix".toList,Toml.Fields.get? fields "dir".toList with
    | some (.string stem),some (.string folder) => some ⟨stem,folder⟩
    | _,_ => none
  | .array _ (.string stem::.string folder::_) => some ⟨stem,folder⟩
  | _ => none

def mappingsOf? : Toml.Value → Option (List Mapping)
  | .array _ items => items.mapM mappingOf?
  | _ => none

def ofFields? (fields : Toml.Fields) : Option Settings := do
  let framework ← match fields.get? "framework".toList with
    | none => some default.framework
    | some value => frameworkOf? value
  let mappings ← match fields.get? "mappings".toList with
    | none => some default.mappings
    | some value => mappingsOf? value
  some ⟨framework,Mapping.orDefaults mappings⟩

def ofToml? (t : Text) : Option Settings := do ofFields? (← Toml.parse? t)

def load (v : Volume) (path : Path) : Except SettingsFailure Settings :=
  match v.read path with
  | .error cause => .error (.unreadable path cause)
  | .ok bytes =>
    match Utf8.decode? bytes with
    | none => .error (.unreadable path .notUtf8)
    | some text =>
      match ofToml? text with
      | some settings => .ok settings
      | none => .error (.invalid path)

def withChoices (settings : Settings) (framework : Option Framework) (mappings : List Mapping) :
    Settings :=
  ⟨framework.getD settings.framework,if mappings = [] then settings.mappings else mappings⟩

end Settings
end ProjectSlice
