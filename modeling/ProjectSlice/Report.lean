import ProjectSlice.Json.Printer
import ProjectSlice.Project
import ProjectSlice.Slice

/-! Reports: what the program finds, as JSON values, and analyses read back from them. The fields
of a view come in a fixed order; the report of an analysis, which carries counts, has them in
ascending order at every level. Reading an analysis takes its fields by name, so it reads the view
and the report alike. -/
namespace ProjectSlice

def Reference.toJson (r : Reference) : Json :=
  .object [("className".toList,.string r.className),("refType".toList,.string r.kind.word),
    ("line".toList,.ofNat r.line)]

def Include.toJson (i : Include) : Json :=
  .object [("type".toList,.string i.keyword.word),("rawPath".toList,.string i.expression),
    ("resolved".toList,.string i.resolved),("line".toList,.ofNat i.line)]

def ClassIndex.toJson (index : ClassIndex) : Json :=
  .object [
    ("classToFile".toList,.object (index.classToFile.map fun e => (e.1,.string e.2))),
    ("fileToClass".toList,.object (index.fileToClass.map fun e => (e.1,.string e.2)))]

def Mapping.toJson (m : Mapping) : Json :=
  .object [("prefix".toList,.string m.stem),("dir".toList,.string m.folder)]

def ProjectState.summary (state : ProjectState) : Json :=
  .object [
    ("root".toList,.string (Utf8.decodeLossy state.root)),
    ("framework".toList,.string state.framework.word),
    ("fileCount".toList,.ofNat state.files.length),
    ("indexed".toList,.ofNat state.index.size),
    ("files".toList,.texts state.relativePaths),
    ("classIndex".toList,state.index.toJson)]

def Dependency.toJson (d : Dependency) : Json :=
  .object [("className".toList,.string d.className),("filePath".toList,.string d.file),
    ("refType".toList,.string d.kind.word),("referencedBy".toList,.string d.referencedBy)]

def SelectedInclude.toJson (i : SelectedInclude) : Json :=
  .object [("type".toList,.string i.found.keyword.word),
    ("rawPath".toList,.string i.found.expression),("resolved".toList,.string i.found.resolved),
    ("line".toList,.ofNat i.found.line),("sourceFile".toList,.string i.source)]

/-- The same view with its fields in ascending order. -/
def SelectedInclude.toReport (i : SelectedInclude) : Json :=
  .object [("line".toList,.ofNat i.found.line),("rawPath".toList,.string i.found.expression),
    ("resolved".toList,.string i.found.resolved),("sourceFile".toList,.string i.source),
    ("type".toList,.string i.found.keyword.word)]

namespace Analysis

def toJson (a : Analysis) : Json :=
  .object [("dependencies".toList,.array (a.dependencies.map Dependency.toJson)),
    ("includes".toList,.array (a.includes.map SelectedInclude.toJson))]

def toReport (a : Analysis) : Json :=
  .object [("dependencies".toList,.array (a.dependencies.map Dependency.toJson)),
    ("includes".toList,.array (a.includes.map SelectedInclude.toReport)),
    ("meta".toList,.object [("dependencies".toList,.ofNat a.dependencies.length),
      ("includes".toList,.ofNat a.includes.length),
      ("unresolvedIncludes".toList,.ofNat a.unresolved.length)])]

end Analysis

/-- The values of a record: an object names them, in any order and among others; an array lists
them in the order of their names and holds nothing else. -/
def Json.record? (names : List Text) : Json → Option (List Json)
  | .array items => if items.length = names.length then some items else none
  | value => names.mapM value.field?

def Json.line? (value : Json) : Option Nat := do
  let n ← value.nat?
  if n < Nat.pow 2 64 then some n else none

/-- The word of a choice: a text, or an object whose only field has the word for its name and
nothing for its value. -/
def Json.choice? (isNothing : Json → Bool) : Json → Option Text
  | .string word => some word
  | .object [(word,value)] => if isNothing value then some word else none
  | _ => none

def Json.isNull : Json → Bool
  | .null => true
  | _ => false

def Json.isNullOrEmpty : Json → Bool
  | .null | .object [] => true
  | _ => false

def Dependency.ofJson? (value : Json) : Option Dependency := do
  match ← value.record? ["className".toList,"filePath".toList,"refType".toList,
      "referencedBy".toList] with
  | [className,file,kind,referencedBy] =>
    some ⟨← className.text?,← file.text?,← ReferenceKind.ofWord? (← kind.choice? Json.isNull),
      ← referencedBy.text?⟩
  | _ => none

def SelectedInclude.ofJson? (value : Json) : Option SelectedInclude := do
  let keyword ← (← value.field? "type".toList).choice? Json.isNullOrEmpty
  let expression ← (← value.field? "rawPath".toList).text?
  let resolved ← (← value.field? "resolved".toList).text?
  let line ← (← value.field? "line".toList).line?
  let source ← (← value.field? "sourceFile".toList).text?
  some ⟨⟨← IncludeKeyword.ofWord? keyword,expression,resolved,line⟩,source⟩

namespace Analysis

def ofJson? (value : Json) : Option Analysis := do
  match ← value.record? ["dependencies".toList,"includes".toList] with
  | [dependencies,includes] =>
    some ⟨← (← dependencies.items?).mapM Dependency.ofJson?,
      ← (← includes.items?).mapM SelectedInclude.ofJson?⟩
  | _ => none

end Analysis

end ProjectSlice
