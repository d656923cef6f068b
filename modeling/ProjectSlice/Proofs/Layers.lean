import Mathlib.Data.List.Forall2
import ProjectSlice.Proofs.ClassIndex
import ProjectSlice.Proofs.Command.Outcome
import ProjectSlice.Proofs.Edges
import ProjectSlice.Proofs.Session
import ProjectSlice.Proofs.Utf8.RoundTrip

/-! Settings in layers. The arguments stand over the settings file, and the file over the defaults;
in each layer an empty list of mappings is no choice. Main statement: a command reads its settings
file, then its mapping arguments from the first on, then its root, and complains about the first of
them that fails; a scan publishes the uppermost choice of each field. -/
namespace ProjectSlice
open Text

namespace Mapping

/-- A prefix and a directory on the two sides of the first equals sign, neither of them blank. -/
inductive Written : Text → Mapping → Prop where
  | sides {stem folder : Text} (first : '=' ∉ stem) (named : ¬Blank stem)
      (placed : ¬Blank folder) : Written (stem ++ '='::folder) ⟨trim stem,trim folder⟩

/-- No equals sign, or blanks alone on one side of the first one. -/
inductive Malformed : Text → Prop where
  | noSign {argument : Text} (none : '=' ∉ argument) : Malformed argument
  | noSide {stem folder : Text} (first : '=' ∉ stem) (blank : Blank stem ∨ Blank folder) :
      Malformed (stem ++ '='::folder)

def complaint (argument : Text) : Text :=
  "invalid prefix mapping \x27".toList ++ argument ++ "\x27, expected PREFIX=DIR".toList

theorem orDefaultsNonempty {mappings : List Mapping} (nonempty : mappings ≠ []) :
    orDefaults mappings = mappings := by
  cases mappings with
  | nil => contradiction
  | cons => rfl

theorem trimNil {t : Text} : trim t = [] ↔ Blank t := by
  constructor
  · intro empty
    obtain ⟨front,back,whole,before,behind⟩ := trimInside t
    rw [whole,empty]
    exact List.forall_mem_append.mpr ⟨before,behind⟩
  · intro blank
    have start : trimStart t = [] := List.dropWhile_eq_nil_iff.mpr blank
    rw [trim,start]
    rfl

theorem spanNoSign {stem : Text} (first : '=' ∉ stem) (rest : Text) :
    (stem ++ rest).span (· != '=') =
      (stem ++ rest.takeWhile (· != '='),rest.dropWhile (· != '=')) := by
  have other : ∀ c ∈ stem, (c != '=') = true :=
    fun c mem => bne_iff_ne.mpr fun same => first (same ▸ mem)
  rw [List.span_eq_takeWhile_dropWhile,List.takeWhile_append_of_pos other,
    List.dropWhile_append_of_pos other]

theorem parseNoSign {argument : Text} (none : '=' ∉ argument) :
    parse argument = .error (complaint argument) := by
  have cut : argument.span (· != '=') = (argument,[]) := by simpa using spanNoSign none []
  rw [parse,cut]
  rfl

theorem parseSides {stem : Text} (first : '=' ∉ stem) (folder : Text) :
    parse (stem ++ '='::folder) = if trim stem = [] ∨ trim folder = [] then
      .error (complaint (stem ++ '='::folder)) else .ok ⟨trim stem,trim folder⟩ := by
  have cut : (stem ++ '='::folder).span (· != '=') = (stem,'='::folder) := by
    simpa using spanNoSign first ('='::folder)
  rw [parse,cut]
  rfl

theorem writtenParse {argument : Text} {mapping : Mapping} (written : Written argument mapping) :
    parse argument = .ok mapping := by
  cases written with
  | sides first named placed =>
    rw [parseSides first,if_neg (not_or.mpr ⟨mt trimNil.mp named,mt trimNil.mp placed⟩)]

theorem malformedParse {argument : Text} (malformed : Malformed argument) :
    parse argument = .error (complaint argument) := by
  cases malformed with
  | noSign none => exact parseNoSign none
  | noSide first blank =>
    rw [parseSides first,if_pos (blank.imp trimNil.mpr trimNil.mpr)]

theorem writtenOrMalformed (argument : Text) :
    (∃ mapping, Written argument mapping) ∨ Malformed argument := by
  by_cases sign : '=' ∈ argument
  · obtain ⟨stem,folder,rfl,first⟩ := List.eq_append_cons_of_mem sign
    by_cases blank : Blank stem ∨ Blank folder
    · exact .inr (.noSide first blank)
    · obtain ⟨named,placed⟩ := not_or.mp blank
      exact .inl ⟨_,.sides first named placed⟩
  · exact .inr (.noSign sign)

end Mapping

namespace Settings

/-- The choices of one layer. A list of mappings is a choice only if it is not empty. -/
structure Layer where
  framework : Option Framework
  mappings : Option (List Mapping)
  deriving DecidableEq, Repr

def settled (layers : List Layer) : Settings :=
  ⟨(layers.findSome? Layer.framework).getD .zf1,
    ((layers.filterMap Layer.mappings).find? (· ≠ [])).getD Mapping.defaults⟩

theorem settledNonempty (layers : List Layer) : (settled layers).mappings ≠ [] := by
  unfold settled
  cases chosen : (layers.filterMap Layer.mappings).find? (· ≠ []) with
  | none => exact List.cons_ne_nil _ _
  | some mappings => simpa using List.find?_some chosen

theorem settledOver (layers : List Layer) (framework : Option Framework) (mappings : List Mapping) :
    (settled layers).withChoices framework mappings =
      settled (⟨framework,some mappings⟩::layers) := by
  cases framework <;> by_cases empty : mappings = [] <;> simp [withChoices,settled,empty]

inductive Chooses {α : Type} (fields : Toml.Fields) (key : Text) (read : Toml.Value → Option α) :
    Option α → Prop where
  | nothing (absent : fields.get? key = none) : Chooses fields key read none
  | choice {value : Toml.Value} {x : α} (present : fields.get? key = some value)
      (means : read value = some x) : Chooses fields key read (some x)

def Describes (t : Text) (layer : Layer) : Prop := ∃ fields, Toml.parse? t = some fields ∧
  Chooses fields "framework".toList frameworkOf? layer.framework ∧
  Chooses fields "mappings".toList mappingsOf? layer.mappings

/- A read of one field, with a default for it and what follows. -/
theorem choosesIff {α β : Type} {fields : Toml.Fields} {key : Text}
    {read : Toml.Value → Option α} {default : α} {next : α → Option β} {y : β} :
    (match fields.get? key with
      | none => (some default).bind next
      | some value => (read value).bind next) = some y ↔
      ∃ choice, Chooses fields key read choice ∧ next (choice.getD default) = some y := by
  constructor
  · intro given
    split at given
    · rename_i absent
      exact ⟨none,.nothing absent,given⟩
    · rename_i present
      obtain ⟨x,means,given⟩ := Option.bind_eq_some_iff.mp given
      exact ⟨some x,.choice present means,given⟩
  · rintro ⟨choice,chosen,given⟩
    cases chosen with
    | nothing absent => rw [absent]; exact given
    | choice present means => rw [present]; exact Option.bind_eq_some_iff.mpr ⟨_,means,given⟩

theorem settledSingle (layer : Layer) : settled [layer] =
    ⟨layer.framework.getD .zf1,Mapping.orDefaults (layer.mappings.getD Mapping.defaults)⟩ := by
  obtain ⟨framework,mappings⟩ := layer
  rcases mappings with _ | _ | ⟨first,rest⟩ <;> cases framework <;> rfl

theorem ofFieldsIff {fields : Toml.Fields} {settings : Settings} :
    ofFields? fields = some settings ↔ ∃ framework mappings,
      Chooses fields "framework".toList frameworkOf? framework ∧
      Chooses fields "mappings".toList mappingsOf? mappings ∧
      settled [⟨framework,mappings⟩] = settings := by
  constructor
  · intro given
    obtain ⟨framework,named,given⟩ := choosesIff.mp given
    obtain ⟨mappings,listed,given⟩ := choosesIff.mp given
    exact ⟨framework,mappings,named,listed,(settledSingle _).trans (Option.some.inj given)⟩
  · rintro ⟨framework,mappings,named,listed,rfl⟩
    refine choosesIff.mpr ⟨framework,named,choosesIff.mpr ⟨mappings,listed,?_⟩⟩
    rw [settledSingle]
    rfl

theorem ofTomlIff {t : Text} {settings : Settings} :
    ofToml? t = some settings ↔ ∃ layer, Describes t layer ∧ settled [layer] = settings := by
  constructor
  · intro read
    obtain ⟨fields,document,given⟩ := Option.bind_eq_some_iff.mp read
    obtain ⟨framework,mappings,named,listed,same⟩ := ofFieldsIff.mp given
    exact ⟨⟨framework,mappings⟩,⟨fields,document,named,listed⟩,same⟩
  · rintro ⟨⟨framework,mappings⟩,⟨fields,document,named,listed⟩,same⟩
    exact Option.bind_eq_some_iff.mpr
      ⟨fields,document,ofFieldsIff.mpr ⟨framework,mappings,named,listed,same⟩⟩

inductive FileRead (v : Volume) : Option Path → Except SettingsFailure (List Layer) → Prop where
  | unnamed : FileRead v none (.ok [])
  | unreadable {path : Path} {cause : Failure} (fails : v.read path = .error cause) :
      FileRead v (some path) (.error (.unreadable path cause))
  | noText {path : Path} {bytes : Bytes} (reads : v.read path = .ok bytes)
      (broken : ∀ t, Utf8.encode t ≠ bytes) :
      FileRead v (some path) (.error (.unreadable path .notUtf8))
  | invalid {path : Path} {t : Text} (reads : v.read path = .ok (Utf8.encode t))
      (silent : ∀ layer, ¬Describes t layer) : FileRead v (some path) (.error (.invalid path))
  | described {path : Path} {t : Text} {layer : Layer} (reads : v.read path = .ok (Utf8.encode t))
      (describes : Describes t layer) : FileRead v (some path) (.ok [layer])

def ofFile (v : Volume) : Option Path → Except SettingsFailure Settings
  | none => .ok default
  | some path => load v path

theorem decodeEncoded (t : Text) : Utf8.decode? (Utf8.encode t) = some t := by
  simp [Utf8.decode?,Utf8.decodeEncode]

theorem fileRead (v : Volume) (config : Option Path) : ∃ file, FileRead v config file := by
  cases config with
  | none => exact ⟨_,.unnamed⟩
  | some path =>
    cases reads : v.read path with
    | error cause => exact ⟨_,.unreadable reads⟩
    | ok bytes =>
      by_cases encoded : ∃ t, Utf8.encode t = bytes
      · obtain ⟨t,rfl⟩ := encoded
        by_cases told : ∃ layer, Describes t layer
        · obtain ⟨layer,describes⟩ := told
          exact ⟨_,.described reads describes⟩
        · exact ⟨_,.invalid reads (not_exists.mp told)⟩
      · exact ⟨_,.noText reads (not_exists.mp encoded)⟩

theorem ofFileRead {v : Volume} {config : Option Path} {file : Except SettingsFailure (List Layer)}
    (read : FileRead v config file) : ofFile v config = file.map settled := by
  cases read with
  | unnamed => rfl
  | unreadable fails => simp only [ofFile,load,fails,Except.map]
  | noText reads broken =>
    have undecoded := Option.eq_none_iff_forall_ne_some.mpr fun t decoded =>
      broken t (Utf8.encodeOfDecode decoded)
    simp only [ofFile,load,reads,undecoded,Except.map]
  | @invalid _ t reads silent =>
    have unread : ofToml? t = none := by
      rw [Option.eq_none_iff_forall_ne_some]
      intro settings read
      obtain ⟨layer,describes,_⟩ := ofTomlIff.mp read
      exact silent layer describes
    simp only [ofFile,load,reads,decodeEncoded,unread,Except.map]
  | described reads describes =>
    have read := ofTomlIff.mpr ⟨_,describes,rfl⟩
    simp only [ofFile,load,reads,decodeEncoded,read,Except.map]

end Settings

namespace Command

inductive MappingsRead : List Text → Except SettingsFailure (List Mapping) → Prop where
  | all {arguments : List Text} {mappings : List Mapping}
      (written : List.Forall₂ Mapping.Written arguments mappings) :
      MappingsRead arguments (.ok mappings)
  | first {before after : List Text} {bad : Text}
      (written : ∀ argument ∈ before, ∃ mapping, Mapping.Written argument mapping)
      (malformed : Mapping.Malformed bad) :
      MappingsRead (before ++ bad::after) (.error (.badMapping (Mapping.complaint bad)))

theorem parseWritten {argument : Text} {mapping : Mapping}
    (written : Mapping.Written argument mapping) (rest : List Text) :
    parseMappings (argument::rest) = (parseMappings rest).map (mapping::·) := by
  simp only [parseMappings,List.mapM_cons,Mapping.writtenParse written]
  rfl

theorem parseMalformed {argument : Text} (malformed : Mapping.Malformed argument)
    (rest : List Text) :
    parseMappings (argument::rest) = .error (.badMapping (Mapping.complaint argument)) := by
  simp only [parseMappings,List.mapM_cons,Mapping.malformedParse malformed]
  rfl

theorem mappingsRead (arguments : List Text) : ∃ mappings, MappingsRead arguments mappings := by
  induction arguments with
  | nil => exact ⟨_,.all .nil⟩
  | cons argument rest ih =>
    obtain ⟨mapping,written⟩ | malformed := Mapping.writtenOrMalformed argument
    · obtain ⟨mappings,read⟩ := ih
      cases read with
      | all others => exact ⟨_,.all (.cons written others)⟩
      | first others malformed =>
        exact ⟨_,.first (List.forall_mem_cons.mpr ⟨⟨mapping,written⟩,others⟩) malformed⟩
    · exact ⟨_,.first (List.forall_mem_nil _) malformed⟩

theorem parseMappingsRead {arguments : List Text} {mappings : Except SettingsFailure (List Mapping)}
    (read : MappingsRead arguments mappings) : parseMappings arguments = mappings := by
  cases read with
  | all written =>
    induction written with
    | nil => rfl
    | cons written _ ih =>
      rw [parseWritten written,ih]
      rfl
  | @first before after bad written malformed =>
    induction before with
    | nil => exact parseMalformed malformed after
    | cons argument before ih =>
      obtain ⟨⟨mapping,this⟩,others⟩ := List.forall_mem_cons.mp written
      rw [List.cons_append,parseWritten this,ih others]
      rfl

/-- What a choice comes to: the first complaint, where the settings file stands before the mapping
arguments, or else the settings of the layers. -/
inductive Settled (v : Volume) (choice : ProjectChoice) : Except SettingsFailure Settings → Prop where
  | file {failure : SettingsFailure} (fails : Settings.FileRead v choice.config (.error failure)) :
      Settled v choice (.error failure)
  | mapping {layers : List Settings.Layer} {failure : SettingsFailure}
      (file : Settings.FileRead v choice.config (.ok layers))
      (fails : MappingsRead choice.mappings (.error failure)) : Settled v choice (.error failure)
  | layered {layers : List Settings.Layer} {mappings : List Mapping}
      (file : Settings.FileRead v choice.config (.ok layers))
      (read : MappingsRead choice.mappings (.ok mappings)) :
      Settled v choice (.ok (Settings.settled (⟨choice.framework,some mappings⟩::layers)))

variable {v : Volume} {choice : ProjectChoice}

theorem settingsOfFile : settings v choice = (Settings.ofFile v choice.config).bind fun base =>
    (parseMappings choice.mappings).map fun mappings => base.withChoices choice.framework mappings := by
  unfold settings
  cases choice.config with
  | none => rfl
  | some path => rfl

theorem settingsSettled {outcome : Except SettingsFailure Settings}
    (settled : Settled v choice outcome) : settings v choice = outcome := by
  rw [settingsOfFile]
  cases settled with
  | file fails =>
    rw [Settings.ofFileRead fails]
    rfl
  | mapping file fails =>
    rw [Settings.ofFileRead file,parseMappingsRead fails]
    rfl
  | layered file read =>
    rw [Settings.ofFileRead file,parseMappingsRead read]
    exact congrArg Except.ok (Settings.settledOver _ _ _)

theorem settledIff {outcome : Except SettingsFailure Settings} :
    Settled v choice outcome ↔ settings v choice = outcome := by
  refine ⟨settingsSettled,?_⟩
  rintro rfl
  obtain ⟨file,named⟩ := Settings.fileRead v choice.config
  obtain ⟨mappings,read⟩ := mappingsRead choice.mappings
  have settled : ∃ outcome, Settled v choice outcome := by
    cases file with
    | error failure => exact ⟨_,.file named⟩
    | ok layers =>
      cases mappings with
      | error failure => exact ⟨_,.mapping named read⟩
      | ok mappings => exact ⟨_,.layered named read⟩
  obtain ⟨outcome,settled⟩ := settled
  rwa [settingsSettled settled]

def Action.project? : Action → Option (Path × ProjectChoice)
  | .scan root choice _ | .analyze root _ _ choice _ => some (root,choice)
  | .references _ | .includes _ _ => none

def Action.Fails (v : Volume) (action : Action) (complaint : Complaint) : Prop :=
  action.render v = .error complaint ∧ ∀ arguments output verbose,
    parse arguments = some (.run ⟨action,output,verbose⟩) →
      run v arguments = ⟨1,[],some complaint,v⟩

inductive Action.Publishes (v : Volume) (settings : Settings) (state : ProjectState) :
    Action → Prop where
  | scan {root : Path} {choice : ProjectChoice} {format : OutputFormat}
      (scans : scanned v root choice = .ok (⟨settings,some state⟩,state))
      (renders : (Action.scan root choice format).render v =
        .ok (state.summary.write format.layout)) :
      Publishes v settings state (.scan root choice format)
  | analyze {root : Path} {files : List Text} {withIncludes : Bool} {choice : ProjectChoice}
      {format : OutputFormat}
      (scans : scanned v root choice = .ok (⟨settings,some state⟩,state))
      (renders : (Action.analyze root files withIncludes choice format).render v =
        (((Session.mk settings (some state)).analyze v ReferenceKind.all (normalizeSelection files)
          withIncludes).mapError Complaint.ofSession).map
            (format.ofAnalysis (normalizeSelection files))) :
      Publishes v settings state (.analyze root files withIncludes choice format)

variable {action : Action} {root : Path}

theorem failsScanned {complaint : Complaint} (reads : action.project? = some (root,choice))
    (fails : scanned v root choice = .error complaint) : action.Fails v complaint := by
  have renders : action.render v = .error complaint := by
    cases action with
    | scan | analyze =>
      cases reads
      rw [Action.render,fails]
      rfl
    | references | includes => contradiction
  refine ⟨renders,fun arguments output verbose asks => ?_⟩
  simp only [run,asks,renders]

theorem publishesScanned {settings : Settings} {state : ProjectState}
    (reads : action.project? = some (root,choice))
    (scans : scanned v root choice = .ok (⟨settings,some state⟩,state)) :
    action.Publishes v settings state := by
  cases action with
  | scan =>
    cases reads
    refine .scan scans ?_
    rw [Action.render,scans]
    rfl
  | analyze root files withIncludes choice format =>
    cases reads
    refine .analyze scans ?_
    rw [Action.render,scans]
    simp only [Except.map]
    rfl
  | references | includes => contradiction

theorem scannedListed {settings : Settings} {found : Scan}
    (given : Command.settings v choice = .ok settings) (nonempty : settings.mappings ≠ [])
    (listed : Scan.run v root = .ok found) :
    let index := ClassIndex.build v settings.framework settings.mappings found.files
    let state := ⟨found.root,found.files,index,settings.framework,settings.mappings⟩
    scanned v root choice = .ok (⟨settings,some state⟩,state) := by
  intro index state
  have kept := Mapping.orDefaultsNonempty nonempty
  have scans : ProjectState.scan v root settings.framework settings.mappings = .ok state :=
    ProjectState.scanIff.mpr ⟨listed,by rw [kept],rfl,kept.symm⟩
  have published : (Session.start settings).scan v root = .ok (⟨settings,some state⟩,state) :=
    Session.scanIff.mpr ⟨rfl,scans⟩
  rw [scanned,given]
  dsimp only
  rw [published]
  rfl

theorem scannedUnlisted {settings : Settings} {failure : ScanFailure}
    (given : Command.settings v choice = .ok settings)
    (unlisted : Scan.run v root = .error failure) :
    scanned v root choice = .error (.ofScan root failure) := by
  simp only [scanned,given,Session.scan,ProjectState.scan,unlisted,Except.mapError]

/-- One outcome of the choice decides how the action goes on. The root is looked at only where there
are settings, and the state that the scan of it publishes has exactly these. -/
theorem settingsLayered (v : Volume) (action : Action) (root : Path) (choice : ProjectChoice)
    (reads : action.project? = some (root,choice)) :
    ∃ outcome, (∀ other, Settled v choice other ↔ other = outcome) ∧
      match outcome with
      | .error failure => action.Fails v (.ofSettings failure)
      | .ok settings => settings.mappings ≠ [] ∧
        match Scan.run v root with
        | .error failure => action.Fails v (.ofScan root failure)
        | .ok found => ∃ state, action.Publishes v settings state ∧
          state.framework = settings.framework ∧ state.mappings = settings.mappings ∧
          state.root = found.root ∧ state.files = found.files ∧
          state.index =
            ClassIndex.build v settings.framework settings.mappings found.files := by
  refine ⟨settings v choice,fun other => settledIff.trans eq_comm,?_⟩
  cases given : settings v choice with
  | error failure => exact failsScanned reads (by rw [scanned,given])
  | ok settings =>
    have nonempty : settings.mappings ≠ [] := by
      cases settledIff.mpr given with
      | layered => exact Settings.settledNonempty _
    refine ⟨nonempty,?_⟩
    cases listed : Scan.run v root with
    | error failure => exact failsScanned reads (scannedUnlisted given listed)
    | ok found =>
      have scans := scannedListed given nonempty listed
      exact ⟨_,publishesScanned reads scans,rfl,rfl,rfl,rfl,rfl⟩

/- A shop whose settings file has a framework and a mapping of its own. -/
def settingsShop : Volume :=
  let name (s : String) : Bytes := Path.ofText s.toList
  let file := Path.ofText ("framework = \"cakephp\"\n[[mappings]]\nprefix = \"Service_\"\n" ++
    "dir = \"services/\"\n").toList
  ⟨.folder (name "shop") (.file (name "shop.toml") file .empty) .empty,[name "shop"]⟩

/- The argument stands over the mapping of the file, whose framework stays. -/
theorem argumentOverFile :
    let here := Path.ofText ".".toList
    let choice : ProjectChoice :=
      ⟨none,[" Form_ = forms/=x ".toList],some (Path.ofText "shop.toml".toList)⟩
    let action := Action.scan here choice .json
    action.project? = some (here,choice) ∧
    ∃ settings state, action.Publishes settingsShop settings state ∧
      state.framework = .cakephp ∧ state.mappings = [⟨"Form_".toList,"forms/=x".toList⟩] := by
  intro here choice action
  have given : settings settingsShop choice =
      .ok ⟨.cakephp,[⟨"Form_".toList,"forms/=x".toList⟩]⟩ := by decide +kernel
  have listed : Scan.run settingsShop here = .ok ⟨Path.ofText "/shop".toList,[]⟩ := by
    decide +kernel
  obtain ⟨outcome,only,follows⟩ := settingsLayered settingsShop action here choice rfl
  cases (only _).mp (settledIff.mpr given)
  obtain ⟨_,follows⟩ := follows
  rw [listed] at follows
  obtain ⟨state,published,framework,mappings,_⟩ := follows
  exact ⟨rfl,_,state,published,framework,mappings⟩

end Command
end ProjectSlice
