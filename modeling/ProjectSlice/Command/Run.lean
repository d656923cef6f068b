import ProjectSlice.Command.Arguments
import ProjectSlice.FileTree.Edit
import ProjectSlice.Report
import ProjectSlice.Session

/-! The program from its arguments to its outcome. An action either yields a text or fails with a
complaint; only a text is written, to the standard output or to one file, so a run that fails
leaves the file tree as it was. -/
namespace ProjectSlice.Command
open Text

structure Complaint where
  headline : Text
  causes : List Text
  deriving DecidableEq, Repr

namespace Complaint

def hanging (indent : Nat) (t : Text) : Text :=
  t.flatMap fun c => if c = '\n' then '\n'::List.replicate indent ' ' else [c]

def numbered (causes : List Text) : Text :=
  causes.zipIdx.flatMap fun (cause,n) =>
    '\n'::List.replicate (5 - (decimal n).length) ' ' ++ decimal n ++ ": ".toList ++
      hanging 7 cause

def message (c : Complaint) : Text :=
  "Error: ".toList ++ c.headline ++
    match c.causes with
    | [] => []
    | [cause] => "\n\nCaused by:\n    ".toList ++ hanging 4 cause
    | causes => "\n\nCaused by:".toList ++ numbered causes

def ofRead (failure : ReadFailure) : Complaint := ⟨failure.context,[failure.cause.message]⟩

def ofScan (root : Path) (failure : ScanFailure) : Complaint :=
  ⟨"scan failed for ".toList ++ Utf8.decodeLossy root,failure.message::
    match failure with
    | .unreachable _ cause => [cause.message]
    | .notDirectory _ => []⟩

def ofSettings : SettingsFailure → Complaint
  | .unreadable path cause =>
    ⟨"failed to read settings file ".toList ++ Utf8.decodeLossy path ++ ": ".toList ++
      cause.message,[cause.message]⟩
  | .invalid path => ⟨"invalid settings file ".toList ++ Utf8.decodeLossy path,[]⟩
  | .badMapping complaint => ⟨complaint,[]⟩

def ofSession (failure : SessionFailure) : Complaint := ⟨failure.message,[]⟩

def ofPath (role : Text) (path : Path) (cause : Failure) : Complaint :=
  ⟨role ++ Utf8.decodeLossy path,[cause.message]⟩

end Complaint

def parseMappings (arguments : List Text) : Except SettingsFailure (List Mapping) :=
  arguments.mapM fun argument =>
    match Mapping.parse argument with
    | .ok mapping => .ok mapping
    | .error complaint => .error (.badMapping complaint)

def settings (v : Volume) (choice : ProjectChoice) : Except SettingsFailure Settings := do
  let base ← match choice.config with
    | none => pure Settings.default
    | some path => Settings.load v path
  let mappings ← parseMappings choice.mappings
  pure (base.withChoices choice.framework mappings)

def normalizeSelection (files : List Text) : List Text := files.filterMap RelativePath.normalize

def OutputFormat.layout : OutputFormat → Json.Layout
  | .jsonCompact => .compact
  | .json | .manifest => .pretty

def scanned (v : Volume) (root : Path) (choice : ProjectChoice) :
    Except Complaint (Session × ProjectState) :=
  match settings v choice with
  | .error failure => .error (.ofSettings failure)
  | .ok settings => ((Session.start settings).scan v root).mapError (Complaint.ofScan root)

def OutputFormat.ofAnalysis (format : OutputFormat) (selected : List Text) (analysis : Analysis) :
    Text :=
  match format with
  | .manifest => Slice.manifest true selected analysis
  | .json | .jsonCompact => analysis.toReport.write format.layout

def Action.render (v : Volume) : Action → Except Complaint Text
  | .scan root choice format => do
    let (_,state) ← scanned v root choice
    pure (state.summary.write format.layout)
  | .analyze root files withIncludes choice format => do
    let (session,_) ← scanned v root choice
    let selected := normalizeSelection files
    let analysis ←
      (session.analyze v ReferenceKind.all selected withIncludes).mapError Complaint.ofSession
    pure (format.ofAnalysis selected analysis)
  | .references file => do
    let text ← (SourceText.read v file).mapError Complaint.ofRead
    let references := Reference.extract ReferenceKind.all text
    pure ((Json.array (references.map Reference.toJson)).write .pretty)
  | .includes file root => do
    let base ←
      (v.canonical root).mapError (Complaint.ofPath "project root is unreachable: ".toList root)
    let real ← (v.canonical file).mapError (Complaint.ofPath "file is unreachable: ".toList file)
    let found ← (Include.ofFile v base real).mapError Complaint.ofRead
    pure ((Json.array (found.map Include.toJson)).write .pretty)

structure Outcome where
  code : Nat
  stdout : Text
  complaint : Option Complaint
  volume : Volume
  deriving DecidableEq, Repr

def versionLine : Text := "phpslice 0.1.0\n".toList

def usage : Text := "Usage: phpslice [--output FILE] [--verbose] scan | analyze | refs | includes …\n".toList

/-- A text that was asked for, brought to the file or the standard output. The file takes it as it
is; printed, it ends in exactly one line end. -/
def emit (v : Volume) (output : Option Path) (rendered : Text) : Outcome :=
  match output with
  | none => ⟨0,trimEnd rendered ++ ['\n'],none,v⟩
  | some path =>
    match v.write path (Utf8.encode rendered) with
    | .ok changed => ⟨0,[],none,changed⟩
    | .error cause => ⟨1,[],some (.ofPath "failed to write ".toList path cause),v⟩

def run (v : Volume) (arguments : List Text) : Outcome :=
  match parse arguments with
  | none => ⟨2,[],none,v⟩
  | some .version => ⟨0,versionLine,none,v⟩
  | some .help => ⟨0,usage,none,v⟩
  | some (.run invocation) =>
    match invocation.action.render v with
    | .error complaint => ⟨1,[],some complaint,v⟩
    | .ok rendered => emit v invocation.output rendered

end ProjectSlice.Command
