import ProjectSlice.Proofs.FileTree.Position

/-! How a walk goes on. A walk down names that are directories is stopped by nothing but a name or
a path that is too long; a walk that has ended in a directory goes on from there, with the links
that it has left. Main statements: a path that is resolved leads to the same when it is only asked
about, and the path of a file's position leads to the file unless it is too long. -/
namespace ProjectSlice.Volume
open ProjectSlice.Path (slash dot IsSegment)

/-- Whether a walk takes some names from a position on: none of them is too long, and none makes
the path too long where that is asked for. -/
def passable (purpose : Purpose) : Position → List Bytes → Bool
  | _,[] => true
  | here,name::names =>
    !(decide (nameLimit < name.length) || isTooDeep purpose (here ++ [name])) &&
      passable purpose (here ++ [name]) names

theorem passableCons {purpose : Purpose} {here : Position} {name : Bytes} {names : List Bytes} :
    passable purpose here (name::names) = true ↔
      ¬(nameLimit < name.length ∨ isTooDeep purpose (here ++ [name]) = true) ∧
        passable purpose (here ++ [name]) names = true := by
  simp only [passable,Bool.and_eq_true,Bool.not_eq_true',Bool.or_eq_false_iff,decide_eq_false_iff_not,
    not_or,Bool.not_eq_true]

theorem shortOfPassable {purpose : Purpose} {here : Position} {names : List Bytes}
    (passes : passable purpose here names = true) : ∀ name ∈ names, name.length ≤ nameLimit := by
  induction names generalizing here with
  | nil => exact nofun
  | cons name names ih =>
    obtain ⟨first,rest⟩ := passableCons.mp passes
    exact List.forall_mem_cons.mpr ⟨Nat.le_of_not_lt (not_or.mp first).1,ih rest⟩

structure Fits (position : Position) : Prop where
  path : (pathOf position).length < pathLimit
  names : ∀ name ∈ position, name.length ≤ nameLimit

theorem Fits.above {position below : Position} (fits : Fits (position ++ below)) : Fits position :=
  ⟨Nat.lt_of_le_of_lt (pathOfLonger position below) fits.path,
    fun name mem => fits.names name (List.mem_append_left _ mem)⟩

theorem passableOfFits (purpose : Purpose) {here : Position} {names : List Bytes}
    (fits : Fits (here ++ names)) : passable purpose here names = true := by
  induction names generalizing here with
  | nil => rfl
  | cons name names ih =>
    rw [List.append_cons] at fits
    have short : name.length ≤ nameLimit :=
      fits.above.names name (List.mem_append_right _ List.mem_cons_self)
    have deep : ¬pathLimit ≤ (pathOf (here ++ [name])).length := Nat.not_le.mpr fits.above.path
    refine passableCons.mpr ⟨not_or.mpr ⟨Nat.not_lt.mpr short,?_⟩,ih fits⟩
    simp [isTooDeep,deep]

section
variable {top : Listing} {purpose : Purpose} {follow : Position → List Bytes → Except Failure Found}
  {here : Position}

theorem walkName {step : Bytes} (asks : purpose ≠ .creating) (stays : ¬(step = [] ∨ step = [dot]))
    (climbs : step ≠ [dot,dot]) (rest : List Bytes) :
    walkSteps top purpose follow here (step::rest) =
      if nameLimit < step.length ∨ isTooDeep purpose (here ++ [step]) = true then
        .error .nameTooLong
      else match top.at? (here ++ [step]) with
        | none => .error .notFound
        | some (.file content) =>
          if rest = [] then .ok (.file (here ++ [step]) content)
          else .error (beyondFile purpose (here ++ [step]) rest)
        | some (.folder _) => walkSteps top purpose follow (here ++ [step]) rest
        | some (.link target) =>
          follow (if Path.isAbsolute target then [] else here) (steps target ++ rest) := by
  have others (condition : Prop) : ¬(purpose = .creating ∧ condition) := fun both => asks both.1
  rw [walkSteps,if_neg stays,if_neg climbs,if_neg (others _)]
  refine if_congr Iff.rfl rfl ?_
  rcases top.at? (here ++ [step]) with _ | (content | target | inside)
  · exact if_neg (others _)
  · rfl
  · rfl
  · rfl

theorem walkInto {name : Bytes} {inside : Listing} (asks : purpose ≠ .creating)
    (valid : IsSegment name) (folder : top.at? (here ++ [name]) = some (.folder inside))
    {names rest : List Bytes} {outcome : Except Failure Found}
    (further : walkSteps top purpose follow (here ++ [name]) rest =
      if passable purpose (here ++ [name]) names then outcome else .error .nameTooLong) :
    walkSteps top purpose follow here (name::rest) =
      if passable purpose here (name::names) then outcome else .error .nameTooLong := by
  rw [walkName asks (not_or.mpr ⟨valid.1,valid.2.1⟩) valid.2.2.1]
  by_cases long : nameLimit < name.length ∨ isTooDeep purpose (here ++ [name]) = true
  · rw [if_pos long,if_neg fun passes => (passableCons.mp passes).1 long]
  · rw [if_neg long,folder]
    dsimp only
    rw [further]
    simp only [passableCons,long,not_false_eq_true,true_and]

theorem walkFolders {names : List Bytes} {inside : Listing} (asks : purpose ≠ .creating)
    (valid : ∀ name ∈ names, IsSegment name)
    (there : top.at? (here ++ names) = some (.folder inside)) (rest : List Bytes) :
    walkSteps top purpose follow here (names ++ rest) =
      if passable purpose here names then walkSteps top purpose follow (here ++ names) rest
      else .error .nameTooLong := by
  induction names generalizing here with
  | nil =>
    rw [List.append_nil]
    rfl
  | cons name names ih =>
    obtain ⟨first,others⟩ := List.forall_mem_cons.mp valid
    rw [List.append_cons] at there ⊢
    obtain ⟨above,folder⟩ : ∃ above, top.at? (here ++ [name]) = some (.folder above) := by
      by_cases last : names = []
      · rw [last,List.append_nil] at there
        exact ⟨inside,there⟩
      · exact Listing.folderAbove last there
    exact walkInto asks first folder (ih others there)

theorem walkToFile {names : List Bytes} {content : Bytes} (asks : purpose ≠ .creating)
    (valid : ∀ name ∈ names, IsSegment name) (nonempty : names ≠ [])
    (there : top.at? (here ++ names) = some (.file content)) :
    walkSteps top purpose follow here names =
      if passable purpose here names then .ok (.file (here ++ names) content)
      else .error .nameTooLong := by
  induction names generalizing here with
  | nil => contradiction
  | cons name names ih =>
    obtain ⟨first,others⟩ := List.forall_mem_cons.mp valid
    rw [List.append_cons] at there ⊢
    by_cases last : names = []
    · subst last
      rw [List.append_nil] at there ⊢
      rw [walkName asks (not_or.mpr ⟨first.1,first.2.1⟩) first.2.2.1,there]
      have nothing : passable purpose (here ++ [name]) [] = true := rfl
      simp only [if_true,passableCons,nothing,and_true,ite_not]
    · obtain ⟨inside,folder⟩ := Listing.folderAbove last there
      exact walkInto asks first folder (ih others last there)

end

theorem walkUnfold (top : Listing) (purpose : Purpose) (links : Nat) :
    ∃ follow, walk top purpose links = walkSteps top purpose follow := by
  cases links with
  | zero => exact ⟨_,rfl⟩
  | succ links => exact ⟨_,rfl⟩

theorem walkStays {top : Listing} {purpose : Purpose}
    {follow : Position → List Bytes → Except Failure Found} {here : Position} {steps : List Bytes}
    (still : ∀ step ∈ steps, step = []) :
    walkSteps top purpose follow here steps = walkSteps top purpose follow here [] := by
  induction steps with
  | nil => rfl
  | cons step steps ih =>
    obtain ⟨empty,still⟩ := List.forall_mem_cons.mp still
    have same : walkSteps top purpose follow here (step::steps) =
        walkSteps top purpose follow here steps := by rw [walkSteps,if_pos (Or.inl empty)]
    exact same.trans (ih still)

/-! What one step does, whatever follows it. -/

/-- The ways in which a walk takes a step: it goes on at once, fails, stands at a file, or follows a
link. Where it goes on, the names on the way were there before or are short. -/
inductive Turn (top : Listing) (purpose : Purpose) (here : Position) (step : Bytes) : Prop where
  | goesOn (there : Position) (known : ∀ name ∈ there, name ∈ here ∨ name.length ≤ nameLimit)
    (same : ∀ follow rest, walkSteps top purpose follow here (step::rest) =
      walkSteps top purpose follow there rest)
  | fails (failure : Failure)
    (same : ∀ follow rest, walkSteps top purpose follow here (step::rest) = .error failure)
  | stands (content : Bytes)
    (passes : ¬(nameLimit < step.length ∨ isTooDeep purpose (here ++ [step]) = true))
    (same : ∀ follow rest, walkSteps top purpose follow here (step::rest) =
      if rest = [] then .ok (.file (here ++ [step]) content)
      else .error (beyondFile purpose (here ++ [step]) rest))
  | follows (target : Bytes)
    (same : ∀ follow rest, walkSteps top purpose follow here (step::rest) =
      follow (if Path.isAbsolute target then [] else here) (steps target ++ rest))

section
variable {top : Listing} {purpose : Purpose} (asks : purpose ≠ .creating)
include asks

theorem turnOfStep (here : Position) (step : Bytes) : Turn top purpose here step := by
  by_cases stays : step = [] ∨ step = [dot]
  · refine .goesOn here (fun _ mem => Or.inl mem) fun follow rest => ?_
    rw [walkSteps,if_pos stays]
  · by_cases climbs : step = [dot,dot]
    · refine .goesOn here.dropLast (fun _ mem => Or.inl ((List.dropLast_prefix here).subset mem)) ?_
      intro follow rest
      rw [walkSteps,if_neg stays,if_pos climbs]
    · have named (follow : Position → List Bytes → Except Failure Found) (rest : List Bytes) :
          walkSteps top purpose follow here (step::rest) = _ := walkName asks stays climbs rest
      by_cases long : nameLimit < step.length ∨ isTooDeep purpose (here ++ [step]) = true
      · exact .fails .nameTooLong fun follow rest => by rw [named,if_pos long]
      · simp only [if_neg long] at named
        cases there : top.at? (here ++ [step]) with
        | none => exact .fails .notFound fun follow rest => by rw [named,there]
        | some entry =>
          cases entry with
          | file content => exact .stands content long fun follow rest => by rw [named,there]
          | link target => exact .follows target fun follow rest => by rw [named,there]
          | folder inside =>
            refine .goesOn (here ++ [step]) ?_ fun follow rest => by rw [named,there]
            intro name mem
            rcases List.mem_append.mp mem with above | last
            · exact Or.inl above
            · cases List.mem_singleton.mp last
              exact Or.inr (Nat.le_of_not_lt (not_or.mp long).1)

/-! A walk that is continued. -/

/- What holds of the rest of a walk from `position` on, and is kept by every link that is followed,
holds of the rest of a walk that passes `position`. The steps in `tail` only ask for a directory. -/
theorem walkStepsOnward {follow : Position → List Bytes → Except Failure Found}
    {position : Position} {inside : Listing} {Onward : (List Bytes → Except Failure Found) → Prop}
    (arrived : Onward (walkSteps top purpose follow position))
    (followed : ∀ base path tail, (∀ step ∈ tail, step = []) →
      follow base (path ++ tail) = .ok (.folder position inside) →
      Onward fun rest => follow base (path ++ rest))
    {here : Position} {path tail : List Bytes} (still : ∀ step ∈ tail, step = [])
    (ok : walkSteps top purpose follow here (path ++ tail) = .ok (.folder position inside)) :
    Onward fun rest => walkSteps top purpose follow here (path ++ rest) := by
  induction path generalizing here with
  | nil =>
    rw [List.nil_append,walkStays still,walkSteps] at ok
    split at ok
    · cases ok
      exact arrived
    · contradiction
  | cons step path ih =>
    cases turnOfStep asks here step with
    | goesOn there known same =>
      have rest := ih ((same follow (path ++ tail)).symm.trans ok)
      rwa [← funext fun rest => same follow (path ++ rest)] at rest
    | fails failure same =>
      cases (same follow (path ++ tail)).symm.trans ok
    | stands content passes same =>
      have stood := (same follow (path ++ tail)).symm.trans ok
      split at stood <;> cases stood
    | follows target same =>
      have linked := (same follow (path ++ tail)).symm.trans ok
      rw [← List.append_assoc] at linked
      have rest := followed _ _ _ still linked
      simp only [List.append_assoc] at rest
      rwa [← funext fun rest => same follow (path ++ rest)] at rest

theorem walkOnward {position : Position} {inside : Listing} {links : Nat} {here : Position}
    {path tail : List Bytes} (still : ∀ step ∈ tail, step = [])
    (ok : walk top purpose links here (path ++ tail) = .ok (.folder position inside)) :
    ∃ left ≤ links, ∀ rest,
      walk top purpose links here (path ++ rest) = walk top purpose left position rest := by
  let Onward (most : Nat) (f : List Bytes → Except Failure Found) : Prop :=
    ∃ left ≤ most, ∀ rest, f rest = walk top purpose left position rest
  induction links generalizing here path tail with
  | zero =>
    have arrived : Onward 0 (walk top purpose 0 position) := ⟨0,Nat.le_refl 0,fun _ => rfl⟩
    exact walkStepsOnward asks arrived (fun _ _ _ _ => nofun) still ok
  | succ links ih =>
    have arrived : Onward (links + 1) (walk top purpose (links + 1) position) :=
      ⟨links + 1,Nat.le_refl _,fun _ => rfl⟩
    refine walkStepsOnward asks arrived (fun base path tail still ok => ?_) still ok
    obtain ⟨left,fewer,same⟩ := ih still ok
    exact ⟨left,Nat.le_succ_of_le fewer,same⟩

end

/-! A path that is resolved and only asked about. -/

section
variable {top : Listing}

theorem walkStepsExisting {follow follow' : Position → List Bytes → Except Failure Found}
    (followed : ∀ base steps found, follow base steps = .ok found → follow' base steps = .ok found)
    {here : Position} {steps : List Bytes} {found : Found}
    (ok : walkSteps top .resolving follow here steps = .ok found) :
    walkSteps top .existing follow' here steps = .ok found := by
  induction steps generalizing here with
  | nil => exact ok
  | cons step rest ih =>
    by_cases stays : step = [] ∨ step = [dot]
    · rw [walkSteps,if_pos stays] at ok ⊢
      exact ih ok
    · by_cases climbs : step = [dot,dot]
      · rw [walkSteps,if_neg stays,if_pos climbs] at ok ⊢
        exact ih ok
      · rw [walkName (by decide) stays climbs] at ok ⊢
        by_cases long : nameLimit < step.length ∨ isTooDeep .resolving (here ++ [step]) = true
        · rw [if_pos long] at ok
          contradiction
        · have short : ¬(nameLimit < step.length ∨ isTooDeep .existing (here ++ [step]) = true) :=
            not_or.mpr ⟨(not_or.mp long).1,Bool.false_ne_true⟩
          rw [if_neg long] at ok
          rw [if_neg short]
          split at ok
          · contradiction
          · split at ok
            · rename_i last
              rw [if_pos last]
              exact ok
            · contradiction
          · exact ih ok
          · exact followed _ _ _ ok

theorem walkExisting {few many : Nat} (fewer : few ≤ many) {here : Position} {steps : List Bytes}
    {found : Found} (ok : walk top .resolving few here steps = .ok found) :
    walk top .existing many here steps = .ok found := by
  induction few generalizing many here steps found with
  | zero =>
    obtain ⟨follow,unfolded⟩ := walkUnfold top .existing many
    rw [unfolded]
    exact walkStepsExisting (fun _ _ _ refused => by cases refused) ok
  | succ few ih =>
    obtain ⟨more,rfl⟩ := Nat.exists_eq_succ_of_ne_zero (Nat.ne_zero_of_lt fewer)
    have fewer : few ≤ more := Nat.le_of_succ_le_succ fewer
    exact walkStepsExisting (fun _ _ _ ok => ih fewer ok) ok

/- Every file at which a walk of names ends has been asked for by its path, and the names of a
position are the names of its beginning or were walked. -/
theorem walkStepsFits {follow : Position → List Bytes → Except Failure Found}
    {position : Position} {content : Bytes}
    (followed : ∀ base steps, (∀ name ∈ base, name.length ≤ nameLimit) →
      follow base steps = .ok (.file position content) → Fits position)
    {here : Position} {steps : List Bytes} (short : ∀ name ∈ here, name.length ≤ nameLimit)
    (ok : walkSteps top .resolving follow here steps = .ok (.file position content)) :
    Fits position := by
  induction steps generalizing here with
  | nil =>
    rw [walkSteps] at ok
    split at ok <;> cases ok
  | cons step rest ih =>
    cases turnOfStep (show Purpose.resolving ≠ .creating by decide) here step with
    | goesOn there known same =>
      rw [same] at ok
      exact ih (fun name mem => (known name mem).elim (short name) id) ok
    | fails failure same =>
      rw [same] at ok
      contradiction
    | stands content passes same =>
      rw [same] at ok
      split at ok
      · cases ok
        obtain ⟨shortStep,shallow⟩ := not_or.mp passes
        refine ⟨?_,List.forall_mem_append.mpr ⟨short,?_⟩⟩
        · simpa [isTooDeep] using shallow
        · exact List.forall_mem_singleton.mpr (Nat.le_of_not_lt shortStep)
      · contradiction
    | follows target same =>
      rw [same] at ok
      refine followed _ _ ?_ ok
      split
      · exact List.forall_mem_nil _
      · exact short

theorem walkFits {links : Nat} {here position : Position} {steps : List Bytes} {content : Bytes}
    (short : ∀ name ∈ here, name.length ≤ nameLimit)
    (ok : walk top .resolving links here steps = .ok (.file position content)) : Fits position := by
  induction links generalizing here steps with
  | zero => exact walkStepsFits (fun _ _ _ refused => by cases refused) short ok
  | succ links ih => exact walkStepsFits (fun _ _ short ok => ih short ok) short ok

end

/-! The path of a position looked up. -/

theorem withoutNul {names : List Bytes} (valid : ∀ name ∈ names, Listing.ValidName name) :
    0 ∉ [slash].intercalate names := by
  intro mem
  rcases Sequence.memIntercalate mem with same | ⟨name,among,inside⟩
  · cases same
  · exact (valid name among).2.2.2.2 inside

section
variable {v : Volume} {position : Position} (nonempty : position ≠ [])
  (valid : ∀ name ∈ position, Listing.ValidName name)
include nonempty valid

theorem lookupPathOf (purpose : Purpose) : v.lookup purpose (pathOf position) =
    if purpose ≠ .resolving ∧ pathLimit ≤ (pathOf position).length then .error .nameTooLong
    else walk v.top purpose linkLimit [] position := by
  have plain : (pathOf position).contains 0 = false := by
    rw [Bool.eq_false_iff,Ne,List.contains_iff_mem,pathOf,List.mem_cons]
    exact not_or.mpr ⟨by decide,withoutNul valid⟩
  have written : steps (pathOf position) = position :=
    stepsPathOf nonempty fun name mem => segmentOfValid (valid name mem)
  have named : pathOf position ≠ [] := List.cons_ne_nil _ _
  unfold lookup
  rw [plain,if_neg Bool.false_ne_true,if_neg named,written]
  rfl

theorem findFile {content : Bytes} (there : v.top.at? position = some (.file content)) :
    (Fits position → v.find (pathOf position) = .ok (.file position content)) ∧
      (¬Fits position → v.find (pathOf position) = .error .nameTooLong) := by
  have asks : Purpose.existing ≠ .creating := by decide
  have segments : ∀ name ∈ position, IsSegment name := fun name mem => segmentOfValid (valid name mem)
  obtain ⟨follow,unfolded⟩ := walkUnfold v.top .existing linkLimit
  have walked : walkSteps v.top .existing follow [] position =
      if passable .existing [] position then .ok (.file position content)
      else .error .nameTooLong := walkToFile asks segments nonempty there
  rw [find,lookupPathOf nonempty valid,unfolded,walked]
  constructor
  · intro fits
    have path : ¬(Purpose.existing ≠ .resolving ∧ pathLimit ≤ (pathOf position).length) :=
      fun long => Nat.not_le.mpr fits.path long.2
    have passes : passable .existing [] position = true := passableOfFits .existing fits
    rw [if_neg path,if_pos passes]
  · intro notFits
    split
    · rfl
    · rename_i short
      have path : (pathOf position).length < pathLimit :=
        Nat.lt_of_not_le fun long => short ⟨by decide,long⟩
      rw [if_neg fun passes => notFits ⟨path,shortOfPassable passes⟩]

end

/-! Paths below a directory that a path leads to. -/

section
variable {v : Volume} {root : Path} {position below : Position} {inside : Listing}
  (further : below ≠ []) (valid : ∀ name ∈ position ++ below, Listing.ValidName name)
include further valid

theorem resolveBelow (there : v.resolve root = .ok (.folder position inside)) :
    ∃ left ≤ linkLimit, v.resolve (root ++ slash::[slash].intercalate below) =
      walk v.top .resolving left position below := by
  have valid : ∀ name ∈ below, Listing.ValidName name := (List.forall_mem_append.mp valid).2
  have segments : ∀ name ∈ below, IsSegment name := fun name mem => segmentOfValid (valid name mem)
  unfold resolve lookup at there ⊢
  split at there
  · contradiction
  · rename_i plain
    split at there
    · contradiction
    · rename_i named
      have still : ∀ step ∈ (if root.getLast? = some slash then [[]] else []), step = ([] : Bytes) := by
        split
        · exact fun step mem => List.mem_singleton.mp mem
        · exact nofun
      rw [if_neg fun long => long.1 rfl] at there
      obtain ⟨left,fewer,onward⟩ := walkOnward (by decide) still there
      refine ⟨left,fewer,?_⟩
      have plainBelow : ¬(root ++ slash::[slash].intercalate below).contains 0 = true := by
        rw [List.contains_iff_mem] at plain ⊢
        rw [List.mem_append,List.mem_cons]
        exact not_or.mpr ⟨plain,not_or.mpr ⟨by decide,withoutNul valid⟩⟩
      have absolute : Path.isAbsolute (root ++ slash::[slash].intercalate below) =
          Path.isAbsolute root := by
        obtain ⟨b,rest,rfl⟩ := List.exists_cons_of_ne_nil named
        rfl
      rw [if_neg plainBelow,if_neg fun empty => named (List.append_eq_nil_iff.mp empty).1,
        if_neg fun long => long.1 rfl,absolute,stepsBehind further segments,onward]

theorem findBelow (there : v.top.at? position = some (.folder inside)) {found : Found}
    (ok : v.find (pathOf (position ++ below)) = .ok found) :
    (∀ name ∈ position, name.length ≤ nameLimit) ∧
      walk v.top .existing linkLimit position below = .ok found := by
  have nonempty : position ++ below ≠ [] := fun empty => further (List.append_eq_nil_iff.mp empty).2
  have segments : ∀ name ∈ position, IsSegment name :=
    fun name mem => segmentOfValid (valid name (List.mem_append_left _ mem))
  obtain ⟨follow,unfolded⟩ := walkUnfold v.top .existing linkLimit
  have walked : walkSteps v.top .existing follow [] (position ++ below) =
      if passable .existing [] position then walkSteps v.top .existing follow position below
      else .error .nameTooLong :=
    walkFolders (by decide) segments (show v.top.at? ([] ++ position) = _ from there) below
  rw [find,lookupPathOf nonempty valid,unfolded,walked] at ok
  rw [unfolded]
  split at ok
  · contradiction
  · split at ok
    · rename_i passes
      exact ⟨shortOfPassable passes,ok⟩
    · contradiction

theorem canonicalBelow (sound : v.top.WellFormed)
    (there : v.resolve root = .ok (.folder position inside)) {real : Path}
    (canonical : v.canonical (root ++ slash::[slash].intercalate below) = .ok real)
    {place : Position} {content : Bytes}
    (ok : v.find (pathOf (position ++ below)) = .ok (.file place content)) :
    v.find real = .ok (.file place content) := by
  obtain ⟨left,fewer,resolved⟩ := resolveBelow further valid there
  obtain ⟨short,found⟩ := findBelow further valid (lookupStands there) ok
  rw [Volume.canonical,resolved] at canonical
  have same (reached : Found) (walked : walk v.top .resolving left position below = .ok reached) :
      reached = .file place content :=
    Except.ok.inj ((walkExisting fewer walked).symm.trans found)
  split at canonical
  · rename_i walked
    cases same _ walked
    cases canonical
    have entry : v.top.at? place = some (.file content) := walkStands walked
    have named : place ≠ [] := by
      rintro rfl
      cases entry
    exact (findFile named (Listing.wellFormedAt sound entry).1 entry).1 (walkFits short walked)
  · rename_i walked
    cases same _ walked
  · rename_i walked
    cases same _ walked
  · contradiction

theorem canonicalOfFile (there : v.resolve root = .ok (.folder position inside)) {content : Bytes}
    (entry : v.top.at? (position ++ below) = some (.file content)) (fits : Fits (position ++ below)) :
    v.canonical (root ++ slash::[slash].intercalate below) = .ok (pathOf (position ++ below)) := by
  obtain ⟨left,fewer,resolved⟩ := resolveBelow further valid there
  have segments : ∀ name ∈ below, IsSegment name :=
    fun name mem => segmentOfValid (valid name (List.mem_append_right _ mem))
  obtain ⟨follow,unfolded⟩ := walkUnfold v.top .resolving left
  rw [Volume.canonical,resolved,unfolded,walkToFile (by decide) segments further entry,
    if_pos (passableOfFits .resolving fits)]

end

end ProjectSlice.Volume
