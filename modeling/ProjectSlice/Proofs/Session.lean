import Mathlib.Data.List.Basic
import ProjectSlice.Session

/-! Runs of a session. Every event comes with the file tree of its moment, so between two events the
tree may change in any way. A run is compared with its past alone: the settings are the last choice
of each field, the published state is what the last successful scan has found. Main statement:
every answer is the one that the past calls for, and the session keeps these two things and nothing
else. -/
namespace ProjectSlice.Session

inductive Operation where
  | scan (root : Path)
  | setFramework (framework : Framework)
  | setMappings (mappings : List Mapping)
  | settings
  | current
  | analyze (selected : List Text) (withIncludes : Bool)
  deriving DecidableEq, Repr

inductive Answer where
  | done
  | scanned (outcome : Except ScanFailure ProjectState)
  | settings (settings : Settings)
  | current (state : Option ProjectState)
  | analyzed (outcome : Except SessionFailure Analysis)

structure Event where
  volume : Volume
  operation : Operation
  deriving DecidableEq, Repr

def perform (kinds : List ReferenceKind) (session : Session) (event : Event) : Session × Answer :=
  match event.operation with
  | .scan root =>
    match session.scan event.volume root with
    | .error failure => (session,.scanned (.error failure))
    | .ok (session,state) => (session,.scanned (.ok state))
  | .setFramework framework => (session.setFramework framework,.done)
  | .setMappings mappings => (session.setMappings mappings,.done)
  | .settings => (session,.settings session.settings)
  | .current => (session,.current session.current)
  | .analyze selected withIncludes =>
    (session,.analyzed (session.analyze event.volume kinds selected withIncludes))

def run (kinds : List ReferenceKind) (session : Session) : List Event → Session × List Answer
  | [] => (session,[])
  | event::events =>
    let (session,answer) := perform kinds session event
    let (session,answers) := run kinds session events
    (session,answer::answers)

def moments (past : List Event) : List Event → List (List Event × Event)
  | [] => []
  | event::events => (past,event)::moments (past ++ [event]) events

namespace Event

def framework? (event : Event) : Option Framework :=
  match event.operation with
  | .setFramework framework => some framework
  | _ => none

def mappings? (event : Event) : Option (List Mapping) :=
  match event.operation with
  | .setMappings mappings => some mappings
  | _ => none

end Event

def settingsAfter (start : Settings) (past : List Event) : Settings :=
  ⟨((past.filterMap Event.framework?).getLast?).getD start.framework,
    ((past.filterMap Event.mappings?).getLast?).getD start.mappings⟩

def freshScan (settings : Settings) (v : Volume) (root : Path) : Except ScanFailure ProjectState :=
  ProjectState.scan v root settings.framework
    (if settings.mappings = [] then Mapping.defaults else settings.mappings)

/-- What an event publishes: a scan that succeeds its state, and nothing else anything. -/
def published? (start : Settings) (moment : List Event × Event) : Option ProjectState :=
  match moment.2.operation with
  | .scan root => (freshScan (settingsAfter start moment.1) moment.2.volume root).toOption
  | _ => none

def publishedAfter (start : Settings) (past : List Event) : Option ProjectState :=
  ((moments [] past).filterMap (published? start)).getLast?

def answerAt (kinds : List ReferenceKind) (start : Settings) (moment : List Event × Event) :
    Answer :=
  let (past,event) := moment
  match event.operation with
  | .scan root => .scanned (freshScan (settingsAfter start past) event.volume root)
  | .setFramework _ | .setMappings _ => .done
  | .settings => .settings (settingsAfter start past)
  | .current => .current (publishedAfter start past)
  | .analyze selected withIncludes =>
    .analyzed (match publishedAfter start past,selected with
      | none,_ => .error .notScanned
      | some _,[] => .error .emptySelection
      | some state,_::_ =>
        .ok (Analysis.resolve event.volume kinds state.index state.root withIncludes selected))

def Answer.state? : Answer → Option ProjectState
  | .scanned (.ok state) => some state
  | _ => none

section
variable {kinds : List ReferenceKind} {start : Settings}

theorem momentsConcat (past events : List Event) (event : Event) :
    moments past (events ++ [event]) = moments past events ++ [(past ++ events,event)] := by
  induction events generalizing past with
  | nil => simp [moments]
  | cons first events ih => simp [moments,ih]

/- The last choice stands whatever comes behind it, unless it is a choice of the same field. -/
theorem settingsConcat (start : Settings) (past : List Event) (event : Event) :
    settingsAfter start (past ++ [event]) =
      ⟨event.framework?.getD (settingsAfter start past).framework,
        event.mappings?.getD (settingsAfter start past).mappings⟩ := by
  simp only [settingsAfter,List.filterMap_append]
  cases chosen : event.framework? <;> cases chosen' : event.mappings? <;> simp [chosen,chosen']

theorem publishedConcat (start : Settings) (past : List Event) (event : Event) :
    publishedAfter start (past ++ [event]) =
      (published? start (past,event)).or (publishedAfter start past) := by
  simp only [publishedAfter,momentsConcat,List.filterMap_append,List.nil_append]
  cases published : published? start (past,event) <;> simp [published]

theorem scanFresh (settings : Settings) (v : Volume) (root : Path) :
    ProjectState.scan v root settings.framework settings.mappings = freshScan settings v root := by
  unfold freshScan
  split
  · rename_i empty
    rw [empty]
    rfl
  · rfl

def sessionAfter (start : Settings) (past : List Event) : Session :=
  ⟨settingsAfter start past,publishedAfter start past⟩

/- One event leaves the session of the longer past behind: no answer but that of a successful scan
touches the published state, and no operation but the two choices touches the settings. -/
theorem performAfter (past : List Event) (event : Event) :
    perform kinds (sessionAfter start past) event =
      (sessionAfter start (past ++ [event]),answerAt kinds start (past,event)) := by
  obtain ⟨v,operation⟩ := event
  unfold sessionAfter
  rw [settingsConcat,publishedConcat]
  cases operation with
  | scan root =>
    simp only [perform,Session.scan,scanFresh,answerAt,published?]
    cases freshScan (settingsAfter start past) v root <;> rfl
  | setFramework framework | setMappings mappings | settings | current => rfl
  | analyze selected withIncludes =>
    simp only [perform,Session.analyze,answerAt]
    cases publishedAfter start past with
    | none => rfl
    | some state =>
      cases selected with
      | nil => rfl
      | cons first selected => rfl

theorem runAfter (past events : List Event) :
    run kinds (sessionAfter start past) events =
      (sessionAfter start (past ++ events),(moments past events).map (answerAt kinds start)) := by
  induction events generalizing past with
  | nil => simp [run,moments]
  | cons event events ih => simp [run,performAfter,ih,moments]

theorem stateOfAnswer (moment : List Event × Event) :
    (answerAt kinds start moment).state? = published? start moment := by
  obtain ⟨past,v,operation⟩ := moment
  cases operation with
  | scan root =>
    simp only [answerAt,published?]
    cases freshScan (settingsAfter start past) v root <;> rfl
  | setFramework framework | setMappings mappings | settings | current => rfl
  | analyze selected withIncludes => rfl

theorem lastStateOfAnswers (kinds : List ReferenceKind) (start : Settings) (past : List Event) :
    (((moments [] past).map (answerAt kinds start)).filterMap Answer.state?).getLast? =
      publishedAfter start past := by
  rw [publishedAfter,List.filterMap_map]
  congr 2
  funext moment
  exact stateOfAnswer moment

theorem unpublishedIff (kinds : List ReferenceKind) (start : Settings) (past : List Event) :
    publishedAfter start past = none ↔
      ∀ state, Answer.scanned (.ok state) ∉ (moments [] past).map (answerAt kinds start) := by
  rw [← lastStateOfAnswers kinds,List.getLast?_eq_none_iff,List.filterMap_eq_nil_iff]
  constructor
  · intro none state mem
    cases none _ mem
  · intro none answer mem
    unfold Answer.state?
    split
    · exact absurd mem (none _)
    · rfl

theorem scanIff {session next : Session} {v : Volume} {root : Path} {state : ProjectState} :
    session.scan v root = .ok (next,state) ↔ next = ⟨session.settings,some state⟩ ∧
      ProjectState.scan v root session.settings.framework session.settings.mappings = .ok state := by
  unfold Session.scan
  cases ProjectState.scan v root session.settings.framework session.settings.mappings with
  | error failure => simp
  | ok found =>
    constructor
    · intro ok
      cases ok
      exact ⟨rfl,rfl⟩
    · rintro ⟨rfl,same⟩
      cases same
      rfl

theorem analyzeIff {session : Session} {v : Volume} {selected : List Text} {withIncludes : Bool}
    {analysis : Analysis} :
    session.analyze v kinds selected withIncludes = .ok analysis ↔
      ∃ state, session.current = some state ∧ selected ≠ [] ∧
        Analysis.resolve v kinds state.index state.root withIncludes selected = analysis := by
  unfold Session.analyze
  cases session.current with
  | none => simp
  | some state => by_cases empty : selected = [] <;> simp [empty]

theorem analyzeAfter (kinds : List ReferenceKind) (start : Settings) (past : List Event)
    (v : Volume) (selected : List Text) (withIncludes : Bool) :
    let outcome := (sessionAfter start past).analyze v kinds selected withIncludes
    (outcome = .error .notScanned ↔ publishedAfter start past = none) ∧
    (outcome = .error .emptySelection ↔ publishedAfter start past ≠ none ∧ selected = []) := by
  simp only [Session.analyze,sessionAfter]
  cases publishedAfter start past with
  | none => simp
  | some state => by_cases empty : selected = [] <;> simp [empty]

theorem performChanges (kinds : List ReferenceKind) (start : Settings) (past : List Event)
    (event : Event) :
    let session := sessionAfter start past
    let (next,answer) := perform kinds session event
    next.settings = ⟨event.framework?.getD session.settings.framework,
      event.mappings?.getD session.settings.mappings⟩ ∧
    next.current = answer.state?.or session.current := by
  dsimp only
  rw [performAfter,stateOfAnswer]
  exact ⟨settingsConcat start past event,publishedConcat start past event⟩

end

/-- Every answer of a run is the one that its past calls for. The session has kept the last choices
and the state of the last scan that succeeded; an analysis is refused when there is no such scan,
and else when nothing is selected; one more event changes the settings by its choice and the
published state by a scan that succeeds. -/
theorem runFollowsPast (kinds : List ReferenceKind) (start : Settings) (events : List Event) :
    let session := (run kinds (Session.start start) events).1
    let answers := (run kinds (Session.start start) events).2
    answers = (moments [] events).map (answerAt kinds start) ∧
    session = ⟨settingsAfter start events,publishedAfter start events⟩ ∧
    session.current = (answers.filterMap Answer.state?).getLast? ∧
    (∀ v selected withIncludes,
      let outcome := session.analyze v kinds selected withIncludes
      (outcome = .error .notScanned ↔ ∀ state, .scanned (.ok state) ∉ answers) ∧
      (outcome = .error .emptySelection ↔
        (∃ state, .scanned (.ok state) ∈ answers) ∧ selected = [])) ∧
    ∀ event,
      let (next,answer) := perform kinds session event
      next.settings = ⟨event.framework?.getD session.settings.framework,
        event.mappings?.getD session.settings.mappings⟩ ∧
      next.current = answer.state?.or session.current := by
  have whole : run kinds (Session.start start) events =
      (sessionAfter start events,(moments [] events).map (answerAt kinds start)) :=
    runAfter [] events
  rw [whole]
  refine ⟨rfl,rfl,(lastStateOfAnswers kinds start events).symm,?_,performChanges kinds start events⟩
  intro v selected withIncludes
  obtain ⟨unscanned,empty⟩ := analyzeAfter kinds start events v selected withIncludes
  have unpublished := unpublishedIff kinds start events
  refine ⟨unscanned.trans unpublished,empty.trans (and_congr_left' ?_)⟩
  rw [Ne,unpublished]
  simp

end ProjectSlice.Session
