import ProjectSlice.Proofs.FileTree.Walk

/-! Names on the way of a path. Where a path leads to something, each of its steps stays in place,
climbs, or is a name that occurs in the tree, though links may have led elsewhere in between. Main
statements: the steps of a path that names a file are known to the tree, and nothing stands below a
regular file. -/
namespace ProjectSlice

namespace Listing

def everyName : Listing → List Bytes
  | .empty => []
  | .file name _ rest | .link name _ rest => name::rest.everyName
  | .folder name inside rest => name::(inside.everyName ++ rest.everyName)

theorem everyNameAdd (name : Bytes) (entry : Entry) (rest : Listing) :
    (add name entry rest).everyName =
      name::((match entry with | .folder inside => inside.everyName | _ => []) ++ rest.everyName) := by
  cases entry <;> rfl

theorem nameFound {l : Listing} {name : Bytes} {entry : Entry} (found : l.find? name = some entry) :
    name ∈ l.everyName ∧ ∀ inside, entry = .folder inside → inside.everyName ⊆ l.everyName := by
  induction l using inductionAdd with
  | empty => contradiction
  | add n e rest _ ih =>
    rw [findAdd] at found
    split at found
    · rename_i same
      cases Option.some.inj found
      simp only [everyNameAdd,same,List.mem_cons,true_or,true_and]
      rintro inside rfl
      simp
    · obtain ⟨among,below⟩ := ih found
      simp only [everyNameAdd]
      refine ⟨by simp [among],fun inside same => ?_⟩
      exact fun other mem => by simp [below inside same mem]

theorem nameAt {l : Listing} {names : List Bytes} {entry : Entry}
    (found : l.at? names = some entry) : names ⊆ l.everyName := by
  induction names generalizing l with
  | nil => exact List.nil_subset _
  | cons name names ih =>
    rw [atCons] at found
    obtain ⟨first,there,further⟩ := Option.bind_eq_some_iff.mp found
    obtain ⟨among,below⟩ := nameFound there
    cases first with
    | folder inside => exact List.cons_subset.mpr ⟨among,List.Subset.trans (ih further) (below inside rfl)⟩
    | file content | link target =>
      have last : names = [] := by
        simp only [Entry.at?] at further
        split at further
        · assumption
        · contradiction
      simp [last,among]

end Listing

namespace Volume
open ProjectSlice.Path (slash dot IsSegment)

def Known (top : Listing) (step : Bytes) : Prop :=
  step = [] ∨ step = [dot] ∨ step = [dot,dot] ∨ step ∈ top.everyName

section
variable {top : Listing} {purpose : Purpose} (asks : purpose ≠ .creating)
include asks

theorem walkStepsKnown {follow : Position → List Bytes → Except Failure Found}
    (followed : ∀ base steps found, follow base steps = .ok found → ∀ step ∈ steps, Known top step)
    {here : Position} {steps : List Bytes} {found : Found}
    (ok : walkSteps top purpose follow here steps = .ok found) : ∀ step ∈ steps, Known top step := by
  induction steps generalizing here with
  | nil => exact nofun
  | cons step rest ih =>
    by_cases stays : step = [] ∨ step = [dot]
    · rw [walkSteps,if_pos stays] at ok
      exact List.forall_mem_cons.mpr ⟨stays.imp_right .inl,ih ok⟩
    · by_cases climbs : step = [dot,dot]
      · rw [walkSteps,if_neg stays,if_pos climbs] at ok
        exact List.forall_mem_cons.mpr ⟨.inr (.inr (.inl climbs)),ih ok⟩
      · rw [walkName asks stays climbs] at ok
        split at ok
        · contradiction
        · cases there : top.at? (here ++ [step]) with
          | none => simp [there] at ok
          | some entry =>
            have own : Known top step := .inr (.inr (.inr (Listing.nameAt there (by simp))))
            refine List.forall_mem_cons.mpr ⟨own,?_⟩
            rw [there] at ok
            cases entry with
            | file content =>
              by_cases last : rest = []
              · simp [last]
              · simp [last] at ok
            | folder inside => exact ih ok
            | link target => exact (List.forall_mem_append.mp (followed _ _ _ ok)).2

theorem walkKnown {links : Nat} {here : Position} {steps : List Bytes} {found : Found}
    (ok : walk top purpose links here steps = .ok found) : ∀ step ∈ steps, Known top step := by
  induction links generalizing here steps found with
  | zero => exact walkStepsKnown asks (fun _ _ _ refused => by cases refused) ok
  | succ links ih => exact walkStepsKnown asks (fun _ _ _ => ih) ok

theorem walkStepsPresent {follow : Position → List Bytes → Except Failure Found}
    (followed : ∀ base steps position, follow base steps ≠ .ok (.absent position))
    (here : Position) (steps : List Bytes) (position : Position) :
    walkSteps top purpose follow here steps ≠ .ok (.absent position) := by
  induction steps generalizing here with
  | nil =>
    rw [walkSteps]
    split <;> simp
  | cons step rest ih =>
    cases turnOfStep asks here step with
    | goesOn there known same => exact same follow rest ▸ ih there
    | fails failure same => simp [same follow rest]
    | stands content passes same =>
      rw [same follow rest]
      split <;> simp
    | follows target same => exact same follow rest ▸ followed _ _ position

theorem walkPresent (links : Nat) (here : Position) (steps : List Bytes) (position : Position) :
    walk top purpose links here steps ≠ .ok (.absent position) := by
  induction links generalizing here steps position with
  | zero => exact walkStepsPresent asks (fun _ _ _ => by simp) here steps position
  | succ links ih => exact walkStepsPresent asks ih here steps position

theorem walkStepsBeyond {follow : Position → List Bytes → Except Failure Found} {place : Position}
    {content : Bytes} {rest : List Bytes} (further : rest ≠ []) {found : Found}
    (followed : ∀ base path, follow base path = .ok (.file place content) →
      follow base (path ++ rest) ≠ .ok found) {here : Position} {path : List Bytes}
    (ok : walkSteps top purpose follow here path = .ok (.file place content)) :
    walkSteps top purpose follow here (path ++ rest) ≠ .ok found := by
  induction path generalizing here with
  | nil =>
    rw [walkSteps] at ok
    split at ok <;> cases ok
  | cons step path ih =>
    rw [List.cons_append]
    cases turnOfStep asks here step with
    | goesOn there known same => exact same follow (path ++ rest) ▸ ih (same follow path ▸ ok)
    | fails failure same => simp [same follow (path ++ rest)]
    | stands content passes same => simp [same follow (path ++ rest),further]
    | follows target same =>
      have linked := followed _ _ ((same follow path).symm.trans ok)
      rwa [same,← List.append_assoc]

/- Where a walk ends at a regular file, it would not have gone on. -/
theorem walkBeyond {place : Position} {content : Bytes} {rest : List Bytes} (further : rest ≠ [])
    {found : Found} {links : Nat} {here : Position} {path : List Bytes}
    (ok : walk top purpose links here path = .ok (.file place content)) :
    walk top purpose links here (path ++ rest) ≠ .ok found := by
  induction links generalizing here path with
  | zero => exact walkStepsBeyond asks further (fun _ _ refused => by cases refused) ok
  | succ links ih => exact walkStepsBeyond asks further (fun _ _ => ih) ok

end

theorem fileStepsKnown {v : Volume} {p : Path} (file : v.isFile p = true) :
    ∀ step ∈ steps p, Known v.top step := by
  obtain ⟨_,_,found,_⟩ := isFileIff.mp file
  exact walkKnown (by decide) (lookupWalked found)

theorem canonicalPlace {v : Volume} (sound : v.top.WellFormed) {given root : Path}
    (canonical : v.canonical given = .ok root) :
    ∃ position, root = pathOf position ∧ ∀ name ∈ position, Listing.ValidName name := by
  unfold Volume.canonical at canonical
  cases reached : v.resolve given with
  | error failure => simp [reached] at canonical
  | ok found =>
    have stands : found.StandsIn v.top := lookupStands reached
    rw [reached] at canonical
    cases found with
    | file position content =>
      exact ⟨position,(Except.ok.inj canonical).symm,(Listing.wellFormedAt sound stands).1⟩
    | folder position inside =>
      exact ⟨position,(Except.ok.inj canonical).symm,(Listing.wellFormedAt sound stands).1⟩
    | absent position => exact absurd (lookupWalked reached) (walkPresent (by decide) _ _ _ _)

theorem topNoFile (v : Volume) : v.isFile (pathOf []) = false := rfl

/- Nothing stands below a regular file. -/
theorem nothingBelow {v : Volume} {position below : Position}
    (file : v.isFile (pathOf position) = true) (further : below ≠ [])
    (valid : ∀ name ∈ position ++ below, IsSegment name) :
    v.isFile (pathOf (position ++ below)) = false := by
  have named : position ≠ [] := by
    rintro rfl
    exact Bool.noConfusion ((topNoFile v).symm.trans file)
  have walked {names : Position} (nonempty : names ≠ []) (valid : ∀ name ∈ names, IsSegment name)
      {found : Found} (led : v.find (pathOf names) = .ok found) :
      walk v.top .existing linkLimit [] names = .ok found := by
    have steps := stepsPathOf nonempty valid
    exact steps ▸ lookupWalked led
  obtain ⟨place,content,found,_⟩ := isFileIff.mp file
  have first := walked named (List.forall_mem_append.mp valid).1 found
  refine Bool.eq_false_iff.mpr fun other => ?_
  obtain ⟨_,_,found,_⟩ := isFileIff.mp other
  have second := walked (List.append_ne_nil_of_left_ne_nil named below) valid found
  exact walkBeyond (by decide) further first second

end Volume
end ProjectSlice
