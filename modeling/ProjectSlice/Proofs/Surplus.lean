import ProjectSlice.Proofs.Join

/-! Climbs beyond the beginning of a path. A walk follows the components of a path: a climb takes away
the last name that stands, and is surplus where no name stands. What a walk leaves is written as a
path and read back from it, and along a joined path one walk follows the other. Main statement: the
lexical normal form keeps every surplus climb of a relative path and none of an absolute one, while
cleaning keeps the last one of an odd number; so it gives the normal form of a relative path with at
most one surplus climb, and of an absolute path with an even number of them. -/
namespace ProjectSlice.Path

/-- One component taken into a lexical normal form, the last component first: `..` removes the name
that stands last, is absorbed at the root, and stays in front where no name stands. -/
def normalStep (standing : List Component) : Component → List Component
  | .root => [.root]
  | .here => standing
  | .up =>
    match standing with
    | .name _::below => below
    | .root::below => .root::below
    | _ => .up::standing
  | .name bytes => .name bytes::standing

def normalForm (p : Path) : Path := ofComponents ((components p).foldl normalStep []).reverse

/-- How a walk along a path has gone: whether from the root, how many climbs were surplus, and which
names stand, the last one first. -/
structure Walk where
  rooted : Bool
  surplus : Nat
  names : List Bytes
  deriving DecidableEq, Repr

namespace Walk

def start : Walk := ⟨false,0,[]⟩

def step (w : Walk) : Component → Walk
  | .root => ⟨true,0,[]⟩
  | .here => w
  | .up =>
    match w.names with
    | [] => ⟨w.rooted,w.surplus + 1,[]⟩
    | _::below => ⟨w.rooted,w.surplus,below⟩
  | .name bytes => ⟨w.rooted,w.surplus,bytes::w.names⟩

/-- Two walks, the second one from where the first one ends: its surplus climbs take away names that
the first one has left, as long as there are any. -/
def andThen (w v : Walk) : Walk :=
  if v.rooted then v
  else ⟨w.rooted,w.surplus + (v.surplus - w.names.length),v.names ++ w.names.drop v.surplus⟩

def climbing (w : Walk) (climbs : Nat) : Walk := ⟨w.rooted,climbs,w.names⟩

def settled (w : Walk) : Walk := w.climbing (if w.rooted then 0 else w.surplus)

def cleaned (w : Walk) : Walk := w.climbing (w.surplus % 2)

def standing (w : Walk) : List Component :=
  w.names.map .name ++ List.replicate w.surplus .up ++ if w.rooted then [.root] else []

def path (w : Walk) : Path := ofComponents w.standing.reverse

def Valid (w : Walk) : Prop := ∀ name ∈ w.names, IsSegment name

end Walk

def walked (p : Path) : Walk := (components p).foldl Walk.step .start

/-! Both ways of taking components in follow the walk. -/

theorem normalStepWalk (w : Walk) (c : Component) :
    normalStep w.settled.standing c = (w.step c).settled.standing := by
  obtain ⟨rooted,surplus,names⟩ := w
  cases c with
  | root | here | name bytes => rfl
  | up =>
    cases names with
    | cons name below => rfl
    | nil =>
      cases rooted with
      | true => rfl
      | false => cases surplus <;> rfl

/- A second surplus climb finds the first one standing last and removes it like a name. -/
theorem cleanStepWalk (w : Walk) (c : Component) :
    cleanStep w.cleaned.standing c = (w.step c).cleaned.standing := by
  obtain ⟨rooted,surplus,names⟩ := w
  cases c with
  | root | here | name bytes => rfl
  | up =>
    cases names with
    | cons name below => rfl
    | nil =>
      simp only [Walk.step,Walk.cleaned,Walk.climbing,Walk.standing]
      rcases Nat.mod_two_eq_zero_or_one surplus with even | odd
      · have next : (surplus + 1) % 2 = 1 := by omega
        rw [even,next]
        cases rooted <;> rfl
      · have next : (surplus + 1) % 2 = 0 := by omega
        rw [odd,next]
        cases rooted <;> rfl

theorem normalStepsWalk (parts : List Component) (w : Walk) :
    parts.foldl normalStep w.settled.standing = (parts.foldl Walk.step w).settled.standing :=
  List.foldl_hom (fun w : Walk => w.settled.standing) normalStepWalk

theorem cleanStepsWalk (parts : List Component) (w : Walk) :
    parts.foldl cleanStep w.cleaned.standing = (parts.foldl Walk.step w).cleaned.standing :=
  List.foldl_hom (fun w : Walk => w.cleaned.standing) cleanStepWalk

theorem normalWalked (p : Path) : p.normalForm = (walked p).settled.path := by
  have run : (components p).foldl normalStep [] = (walked p).settled.standing :=
    normalStepsWalk (components p) .start
  rw [normalForm,run,Walk.path]

theorem standingWalked (p : Path) :
    (components p).foldl cleanStep [] = (walked p).cleaned.standing :=
  cleanStepsWalk (components p) .start

theorem cleanWalked (p : Path) : p.clean = (walked p).cleaned.path := by
  rw [clean,standingWalked,Walk.path]

theorem walkedValid (p : Path) : (walked p).Valid := by
  intro name mem
  have kept : .name name ∈ components p.clean := by
    rw [componentsClean,standingWalked,List.mem_reverse]
    exact List.mem_append_left _ (List.mem_append_left _ (List.mem_map_of_mem mem))
  have inner : (Component.name name).IsInner :=
    ((memComponents kept).resolve_left nofun).resolve_left nofun
  exact inner

/-! A walk is read back from the path that it leaves. -/

theorem stepsStanding (w : Walk) : w.standing.reverse.foldl Walk.step .start = w := by
  obtain ⟨rooted,surplus,names⟩ := w
  have top : (if rooted then [Component.root] else []).foldr (fun c w => Walk.step w c) .start =
      ⟨rooted,0,[]⟩ := by
    cases rooted <;> rfl
  have climbs : (List.replicate surplus Component.up).foldr (fun c w => Walk.step w c)
      ⟨rooted,0,[]⟩ = ⟨rooted,surplus,[]⟩ := by
    induction surplus with
    | zero => rfl
    | succ surplus ih => rw [List.replicate_succ,List.foldr_cons,ih]; rfl
  rw [List.foldl_reverse,Walk.standing,List.foldr_append,List.foldr_append,top,climbs]
  induction names with
  | nil => rfl
  | cons name names ih => rw [List.map_cons,List.foldr_cons,ih]; rfl

theorem componentsStanding {w : Walk} (valid : w.Valid) : components w.path = w.standing.reverse := by
  obtain ⟨rooted,surplus,names⟩ := w
  have inner : ∀ c ∈ (names.map Component.name ++ List.replicate surplus Component.up).reverse,
      c.IsInner := by
    intro c mem
    rcases List.mem_append.mp (List.mem_reverse.mp mem) with named | climbs
    · exact innerOfNames valid c named
    · exact List.eq_of_mem_replicate climbs ▸ trivial
  rw [Walk.path,Walk.standing,List.reverse_append]
  cases rooted with
  | true => exact componentsOfRooted inner
  | false => exact componentsOfInner inner

theorem walkedPath {w : Walk} (valid : w.Valid) : walked w.path = w := by
  rw [walked,componentsStanding valid,stepsStanding]

theorem walkedNormal (p : Path) : walked p.normalForm = (walked p).settled := by
  rw [normalWalked]
  exact walkedPath (walkedValid p)

theorem walkedClean (p : Path) : walked p.clean = (walked p).cleaned := by
  rw [cleanWalked]
  exact walkedPath (walkedValid p)

theorem pathSame {w v : Walk} (valid : w.Valid) (valid' : v.Valid) : w.path = v.path ↔ w = v := by
  constructor
  · intro same
    rw [← walkedPath valid,same,walkedPath valid']
  · exact congrArg Walk.path

theorem cleanSame {p q : Path} : p.clean = q.clean ↔ (walked p).cleaned = (walked q).cleaned := by
  rw [cleanWalked,cleanWalked]
  exact pathSame (walkedValid p) (walkedValid q)

theorem cleanIsNormal {p : Path} :
    p.clean = p.normalForm ↔ (walked p).cleaned = (walked p).settled := by
  rw [cleanWalked,normalWalked]
  exact pathSame (walkedValid p) (walkedValid p)

/-! Walks along joined paths. -/

theorem rootedSteps (parts : List Component) (w : Walk) :
    (parts.foldl Walk.step w).rooted = (w.rooted || decide (.root ∈ parts)) := by
  induction parts generalizing w with
  | nil => simp
  | cons c parts ih =>
    rw [List.foldl_cons,ih]
    obtain ⟨rooted,surplus,names⟩ := w
    cases c with
    | root => simp [Walk.step]
    | here | name bytes => simp [Walk.step]
    | up => cases names <;> simp [Walk.step]

theorem rootedWalked (p : Path) : (walked p).rooted = p.isAbsolute := by
  obtain ⟨first,rest,_,read⟩ := segmentsCut p
  have noRoot (segment : Bytes) : innerComponent? segment ≠ some .root := by
    unfold innerComponent?
    grind
  have noRootFirst : firstComponent? false first ≠ some .root := by
    unfold firstComponent?
    grind
  rw [walked,rootedSteps,read]
  cases p.isAbsolute with
  | true => simp [firstComponent?]
  | false => simp [Walk.start,noRoot,noRootFirst]

theorem andThenStart (w : Walk) : w.andThen .start = w := by
  simp [Walk.andThen,Walk.start]

theorem stepAndThen (w v : Walk) (c : Component) : (w.andThen v).step c = w.andThen (v.step c) := by
  obtain ⟨rooted,surplus,names⟩ := v
  cases c with
  | root | here => rfl
  | name bytes => cases rooted <;> rfl
  | up =>
    cases rooted with
    | true => cases names <;> rfl
    | false =>
      cases names with
      | cons name below => rfl
      | nil =>
        -- The climb takes away a name that the first walk has left, or none is left.
        simp only [Walk.andThen,Walk.step,Bool.false_eq_true,if_false,List.nil_append]
        by_cases deeper : surplus < w.names.length
        · have level : surplus - w.names.length = surplus + 1 - w.names.length := by omega
          rw [List.drop_eq_getElem_cons deeper,level]
        · have next : surplus - w.names.length + 1 = surplus + 1 - w.names.length := by omega
          rw [List.drop_eq_nil_of_le (by omega),List.drop_eq_nil_of_le (by omega)]
          simp only [Nat.add_assoc,next]

theorem stepsAndThen (w : Walk) (parts : List Component) :
    parts.foldl Walk.step w = w.andThen (parts.foldl Walk.step .start) := by
  have run : parts.foldl Walk.step (w.andThen .start) = w.andThen (parts.foldl Walk.step .start) :=
    List.foldl_hom w.andThen (stepAndThen w)
  rwa [andThenStart] at run

theorem walkedJoin (base p : Path) : walked (base.join p) = (walked base).andThen (walked p) := by
  cases absolute : p.isAbsolute with
  | true =>
    have rooted : (walked p).rooted = true := (rootedWalked p).trans absolute
    rw [join,if_pos absolute,Walk.andThen,if_pos rooted]
  | false =>
    have passes (w : Walk) : w.step .here = w := rfl
    rw [walked,foldJoin passes absolute,stepsAndThen]
    rfl

section
variable {p : Path} (relative : p.isAbsolute = false)
include relative

theorem settledRelative : (walked p).settled = walked p := by
  rw [Walk.settled,rootedWalked,relative]
  rfl

theorem joinNormal (base : Path) : (base.join p.normalForm).clean = (base.join p).clean := by
  rw [cleanSame,walkedJoin,walkedJoin,walkedNormal,settledRelative relative]

theorem joinCleanIff (base : Path) : (base.join p.clean).clean = (base.join p).clean ↔
    (walked p).surplus ≤ 1 ∨ (walked base).names.length ≤ (walked p).surplus % 2 := by
  have below : (walked p).rooted = false := (rootedWalked p).trans relative
  rw [cleanSame,walkedJoin,walkedJoin,walkedClean]
  simp only [Walk.andThen,Walk.cleaned,Walk.climbing,below,Bool.false_eq_true,if_false,
    Walk.mk.injEq,true_and,List.append_cancel_left_eq,List.drop_eq_drop_iff]
  omega

end

/-- Cleaning gives the lexical normal form but for what it forgets of surplus climbs. The normal form
of a relative path has all of them in front of its names, that of an absolute path none, and a clean
path one if their number is odd. So cleaning gives the normal form of a relative path exactly with at
most one surplus climb, and of an absolute path with an even number. The normal form takes the place of
a relative path behind any other; behind a directory with names for all the climbs, the clean form does
so exactly with at most one surplus climb. -/
theorem cleanNormalIff (p : Path) :
    p.normalForm = ((walked p).climbing (if p.isAbsolute then 0 else (walked p).surplus)).path ∧
    p.clean = ((walked p).climbing ((walked p).surplus % 2)).path ∧
    (p.clean = p.normalForm ↔
      if p.isAbsolute then (walked p).surplus % 2 = 0 else (walked p).surplus ≤ 1) ∧
    ∀ base, p.isAbsolute = false →
      (base.join p.normalForm).clean = (base.join p).clean ∧
      ((walked p).surplus ≤ (walked base).names.length →
        ((base.join p.clean).clean = (base.join p).clean ↔ (walked p).surplus ≤ 1)) := by
  refine ⟨?_,cleanWalked p,?_,fun base relative => ⟨joinNormal relative base,fun enough => ?_⟩⟩
  · rw [normalWalked,Walk.settled,rootedWalked]
  · rw [cleanIsNormal,Walk.cleaned,Walk.settled,rootedWalked]
    simp only [Walk.climbing,Walk.mk.injEq,true_and,and_true]
    cases p.isAbsolute with
    | true => rfl
    | false =>
      simp only [Bool.false_eq_true,if_false]
      omega
  · rw [joinCleanIff relative base]
    omega

/- From a shop, one surplus climb leads to a neighbour, and two of them to the top. -/
theorem neighbourCleaned :
    let shop := ofText "/srv/shop".toList
    let neighbour := ofText "./lib/../../mall//cart.php".toList
    let beyond := ofText "../../etc".toList
    (neighbour.isAbsolute = false ∧ (walked neighbour).surplus = 1 ∧
      (walked neighbour).surplus ≤ (walked shop).names.length ∧
      neighbour.clean = neighbour.normalForm ∧
      (shop.join neighbour.clean).clean = (shop.join neighbour).clean) ∧
    beyond.isAbsolute = false ∧ (walked beyond).surplus = 2 ∧
      (walked beyond).surplus ≤ (walked shop).names.length ∧
      beyond.clean ≠ beyond.normalForm ∧
      (shop.join beyond.normalForm).clean = (shop.join beyond).clean ∧
      (shop.join beyond.clean).clean ≠ (shop.join beyond).clean := by
  intro shop neighbour beyond
  obtain ⟨_,_,same,behind⟩ := cleanNormalIff neighbour
  obtain ⟨_,_,same',behind'⟩ := cleanNormalIff beyond
  have depth : (walked shop).names.length = 2 := by decide +kernel
  have near : neighbour.isAbsolute = false := by decide +kernel
  have once : (walked neighbour).surplus = 1 := by decide +kernel
  have far : beyond.isAbsolute = false := by decide +kernel
  have twice : (walked beyond).surplus = 2 := by decide +kernel
  have nearby : (walked neighbour).surplus ≤ (walked shop).names.length := by omega
  have inside : (walked beyond).surplus ≤ (walked shop).names.length := by omega
  refine ⟨⟨near,once,nearby,?_,?_⟩,far,twice,inside,?_,?_,?_⟩
  · simp [same,near,once]
  · exact ((behind shop near).2 nearby).mpr (Nat.le_of_eq once)
  · simp [same',far,twice]
  · exact (behind' shop far).1
  · rw [ne_eq,(behind' shop far).2 inside,twice]
    decide

/- Two climbs in a row are forgotten, and a single one above the top stays. -/
theorem climbsForgotten :
    let shop := ofText "/srv/shop".toList
    let climbs := ofText "../../lib".toList
    let above := ofText "/../lib".toList
    climbs.normalForm = climbs ∧ climbs.clean = ofText "lib".toList ∧
    climbs.clean ≠ climbs.normalForm ∧
    above.normalForm = ofText "/lib".toList ∧ above.clean = above ∧
    above.clean ≠ above.normalForm ∧
    (walked climbs).surplus = 2 ∧ (walked shop).names.length = 2 ∧
    (shop.join climbs).clean = ofText "/lib".toList ∧
    (shop.join climbs.clean).clean = ofText "/srv/shop/lib".toList := by decide +kernel

end ProjectSlice.Path
