import Mathlib.Data.List.DropRight
import Mathlib.Data.List.Infix
import ProjectSlice.Proofs.Spelling

/-! Lexical normal forms. A segment that climbs takes away the last name that still stands in front
of it. So a name stands at the end if nowhere behind it more segments climb than name something, and
a walk climbs above its beginning where that happens counted from the beginning. Main statement: the
normal form of a path is what stands of it; it is its own normal form and takes the place of the
path in front of any other. -/
namespace ProjectSlice.RelativePath
open Sequence Text

instance (segment) : Decidable (IsName segment) := by
  unfold IsName; infer_instance

/-- Whether on the way to some place more segments climb than name something. -/
def Climbs (segments : List Text) : Prop :=
  ∃ front ∈ segments.inits, front.countP (IsName ·) < front.count ['.','.']
instance (segments) : Decidable (Climbs segments) := by
  unfold Climbs; infer_instance

/-- The names that nothing behind them takes away. -/
def standing : List Text → List Text
  | [] => []
  | s::rest => if IsName s ∧ ¬Climbs rest then s::standing rest else standing rest

/-- How far above its beginning a walk climbs. -/
def surplus : List Text → Nat
  | [] => 0
  | s::rest =>
    if s = [] ∨ s = ['.'] then surplus rest
    else if s = ['.','.'] then surplus rest + 1
    else surplus rest - 1

theorem inductionSegments {motive : List Text → Prop} (nil : motive [])
    (idle : ∀ s rest, s = [] ∨ s = ['.'] → motive rest → motive (s::rest))
    (up : ∀ rest, motive rest → motive (['.','.']::rest))
    (name : ∀ s rest, IsName s → motive rest → motive (s::rest)) (segments : List Text) :
    motive segments := by
  induction segments with
  | nil => exact nil
  | cons s rest ih =>
    by_cases stays : s = [] ∨ s = ['.']
    · exact idle s rest stays ih
    · by_cases climbs : s = ['.','.']
      · exact climbs ▸ up rest ih
      · exact name s rest ⟨(not_or.mp stays).1,(not_or.mp stays).2,climbs⟩ ih

section
variable {s : Text} (rest : List Text)

theorem surplusIdle (stays : s = [] ∨ s = ['.']) : surplus (s::rest) = surplus rest := if_pos stays

theorem surplusUp : surplus (['.','.']::rest) = surplus rest + 1 := rfl

theorem surplusName (named : IsName s) : surplus (s::rest) = surplus rest - 1 := by
  rw [surplus,if_neg (not_or.mpr ⟨named.1,named.2.1⟩),if_neg named.2.2]

theorem idleNoName (stays : s = [] ∨ s = ['.']) : ¬IsName s ∧ s ≠ ['.','.'] := by
  rcases stays with rfl | rfl <;> decide

end

theorem upNoName : ¬IsName ['.','.'] := by decide

theorem climbsOnward (depth : Nat) (s : Text) (rest : List Text) :
    (∃ front ∈ (s::rest).inits, depth + front.countP (IsName ·) < front.count ['.','.']) ↔
      ∃ front ∈ rest.inits,
        depth + (s::front).countP (IsName ·) < (s::front).count ['.','.'] := by
  rw [List.inits_cons,List.exists_mem_cons_iff]
  simp only [List.mem_map,exists_exists_and_eq_and]
  exact or_iff_right (Nat.not_lt_zero _)

/- The walk begins at some depth, so that it can be followed segment by segment. -/
theorem climbsFrom (depth : Nat) (segments : List Text) :
    (∃ front ∈ segments.inits, depth + front.countP (IsName ·) < front.count ['.','.']) ↔
      depth < surplus segments := by
  induction segments using inductionSegments generalizing depth with
  | nil => simp [surplus]
  | idle s rest stays ih =>
    obtain ⟨unnamed,other⟩ := idleNoName stays
    rw [climbsOnward,surplusIdle rest stays,← ih]
    simp [unnamed,other]
  | up rest ih =>
    rw [climbsOnward,surplusUp]
    cases depth with
    | zero => exact iff_of_true ⟨[],by simp,by decide⟩ (Nat.succ_pos _)
    | succ depth =>
      rw [Nat.succ_lt_succ_iff,← ih]
      simp only [List.countP_cons,List.count_cons_self,decide_eq_true_eq,if_neg upNoName]
      simp only [Nat.succ_add,Nat.succ_lt_succ_iff,Nat.add_zero]
  | name s rest named ih =>
    have deeper : depth < surplus rest - 1 ↔ depth + 1 < surplus rest := by omega
    rw [climbsOnward,surplusName rest named,deeper,← ih]
    simp only [List.countP_cons,List.count_cons_of_ne named.2.2,decide_eq_true_eq,if_pos named]
    simp only [Nat.add_assoc,Nat.add_comm]

theorem climbsIff {segments : List Text} : Climbs segments ↔ 0 < surplus segments := by
  simpa only [Climbs,Nat.zero_add] using climbsFrom 0 segments

theorem standingUnnamed {s : Text} (unnamed : ¬IsName s) (rest : List Text) :
    standing (s::rest) = standing rest := by
  rw [standing,if_neg fun both => unnamed both.1]

theorem standingName {s : Text} (named : IsName s) (rest : List Text) : standing (s::rest) =
    if surplus rest = 0 then s::standing rest else standing rest := by
  simp only [standing,climbsIff,named,true_and,Nat.pos_iff_ne_zero,not_not]

theorem walkStanding (below segments : List Text) : walk below segments =
    if below.length < surplus segments then none
    else some ((below.drop (surplus segments)).reverse ++ standing segments) := by
  induction segments using inductionSegments generalizing below with
  | nil => simp [walk,surplus,standing]
  | idle s rest stays ih =>
    unfold walk
    rw [if_pos stays,ih,surplusIdle rest stays,standingUnnamed (idleNoName stays).1]
  | up rest ih =>
    unfold walk
    rw [if_neg (by decide),if_pos rfl,surplusUp,standingUnnamed upNoName]
    cases below with
    | nil => rfl
    | cons last below => simp only [ih,List.length_cons,Nat.succ_lt_succ_iff,List.drop_succ_cons]
  | name s rest named ih =>
    unfold walk
    rw [if_neg (not_or.mpr ⟨named.1,named.2.1⟩),if_neg named.2.2,ih,surplusName rest named,
      standingName named]
    cases surplus rest with
    | zero => simp
    | succ above => simp

/- Of two walks in a row, the second one takes away from the end of what the first one leaves. -/
theorem standingAppend (a b : List Text) :
    standing (a ++ b) = (standing a).rdrop (surplus b) ++ standing b ∧
    surplus (a ++ b) = surplus a + (surplus b - (standing a).length) := by
  induction a using inductionSegments with
  | nil => simp [standing,surplus]
  | idle s rest stays ih =>
    have unnamed := (idleNoName stays).1
    rw [List.cons_append,surplusIdle _ stays,surplusIdle _ stays,standingUnnamed unnamed,
      standingUnnamed unnamed]
    exact ih
  | up rest ih =>
    rw [List.cons_append,surplusUp,surplusUp,standingUnnamed upNoName,standingUnnamed upNoName,
      ih.2]
    exact ⟨ih.1,by omega⟩
  | name s rest named ih =>
    rw [List.cons_append,surplusName _ named,surplusName _ named,standingName named,
      standingName named,ih.1,ih.2]
    by_cases level : surplus rest = 0
    · rw [level,if_pos rfl,Nat.zero_add,List.length_cons]
      refine ⟨?_,by omega⟩
      by_cases kept : surplus b ≤ (standing rest).length
      · have more : (standing rest).length + 1 - surplus b =
            (standing rest).length - surplus b + 1 := by omega
        rw [if_pos (Nat.sub_eq_zero_of_le kept)]
        simp only [List.rdrop,List.length_cons,more,List.take_succ_cons,List.cons_append]
      · have none : (standing rest).length - surplus b = 0 := by omega
        have none' : (standing rest).length + 1 - surplus b = 0 := by omega
        rw [if_neg (by omega)]
        simp only [List.rdrop,List.length_cons,none,none',List.take_zero]
    · rw [if_neg (by omega),if_neg level]
      exact ⟨rfl,by omega⟩

theorem standingRule (front : List Text) (s : Text) : standing (front ++ [s]) =
    if s = [] ∨ s = ['.'] then standing front
    else if s = ['.','.'] then (standing front).dropLast
    else standing front ++ [s] := by
  rw [(standingAppend front [s]).1]
  by_cases stays : s = [] ∨ s = ['.']
  · rw [if_pos stays,surplusIdle _ stays,standingUnnamed (idleNoName stays).1]
    simp [surplus,standing]
  · by_cases climbs : s = ['.','.']
    · subst climbs
      rw [if_neg stays,if_pos rfl,surplusUp,standingUnnamed upNoName]
      simp [surplus,standing,List.rdrop,List.dropLast_eq_take]
    · have named : IsName s := ⟨(not_or.mp stays).1,(not_or.mp stays).2,climbs⟩
      rw [if_neg stays,if_neg climbs,surplusName _ named,standingName named]
      simp [surplus,standing]

theorem standingNames {segments : List Text} {s : Text} (mem : s ∈ standing segments) :
    IsName s ∧ s ∈ segments := by
  induction segments with
  | nil => contradiction
  | cons first rest ih =>
    rw [standing] at mem
    split at mem
    · rename_i kept
      rcases List.mem_cons.mp mem with rfl | later
      · exact ⟨kept.1,List.mem_cons_self⟩
      · exact (ih later).imp_right (List.mem_cons_of_mem _)
    · exact (ih mem).imp_right (List.mem_cons_of_mem _)

theorem standingOfNames {segments : List Text} (names : ∀ s ∈ segments, IsName s) :
    surplus segments = 0 ∧ standing segments = segments := by
  induction segments with
  | nil => exact ⟨rfl,rfl⟩
  | cons s rest ih =>
    obtain ⟨named,names⟩ := List.forall_mem_cons.mp names
    obtain ⟨level,all⟩ := ih names
    rw [surplusName rest named,standingName named,level,all]
    exact ⟨rfl,rfl⟩

theorem normalizeStanding (path : Text) : normalize path =
    if Climbs (segments path) ∨ standing (segments path) = [] then none
    else some (joined ['/'] (standing (segments path))) := by
  rw [normalize,walkStanding]
  by_cases climbs : Climbs (segments path)
  · rw [if_pos (Or.inl climbs),List.length_nil,if_pos (climbsIff.mp climbs)]
  · rw [List.length_nil,if_neg (mt climbsIff.mpr climbs),List.drop_nil,List.reverse_nil,
      List.nil_append]
    cases standing (segments path) with
    | nil => rw [if_pos (Or.inr rfl)]
    | cons s rest => rw [if_neg (not_or.mpr ⟨climbs,List.cons_ne_nil _ _⟩)]

theorem segmentsOfStanding {path : Text} (nonempty : standing (segments path) ≠ []) :
    segments (joined ['/'] (standing (segments path))) = standing (segments path) :=
  segmentsJoined nonempty fun _ mem => splitFree (standingNames mem).2

/- What stands of a path is all that the walk behind it meets. -/
theorem normalizeBehind {path normal : Text} (normalized : normalize path = some normal)
    (t : Text) : normalize (path ++ '/'::t) = normalize (normal ++ '/'::t) := by
  have behind (front : Text) : segments (front ++ '/'::t) = segments front ++ segments t :=
    List.splitOnP_append_cons front t rfl
  rw [normalizeStanding] at normalized
  split at normalized
  · contradiction
  · rename_i stands
    obtain ⟨stays,nonempty⟩ := not_or.mp stands
    cases normalized
    have level : surplus (segments path) = 0 := by
      rw [climbsIff] at stays
      omega
    have kept := standingOfNames fun s (mem : s ∈ standing (segments path)) => (standingNames mem).1
    simp only [normalizeStanding,behind,climbsIff,standingAppend,segmentsOfStanding nonempty,level,
      kept.1,kept.2]

/-- What stands of a path is written by adding its segments one by one, where each climb takes away
the last name that stands. This is the normal form, unless somewhere more segments climb than name
something or nothing stands. A normal form consists of names, is its own normal form, and stands for
its path in front of any other. -/
theorem normalFormStands :
    (standing [] = [] ∧ ∀ front s, standing (front ++ [s]) =
      if s = [] ∨ s = ['.'] then standing front
      else if s = ['.','.'] then (standing front).dropLast
      else standing front ++ [s]) ∧
    (∀ path, normalize path = none ↔
      Climbs (segments path) ∨ standing (segments path) = []) ∧
    (∀ path, ¬Climbs (segments path) → standing (segments path) ≠ [] →
      normalize path = some (joined ['/'] (standing (segments path)))) ∧
    (∀ path normal, normalize path = some normal →
      LiesBelow normal ∧ '\\' ∉ normal ∧ normalize normal = some normal) ∧
    ∀ path normal, normalize path = some normal →
      ∀ t, normalize (path ++ '/'::t) = normalize (normal ++ '/'::t) := by
  refine ⟨⟨rfl,standingRule⟩,fun path => ?_,fun path stays nonempty => ?_,
    fun path normal normalized => ?_,fun path normal => normalizeBehind⟩
  · rw [normalizeStanding]
    split
    · rename_i none
      exact iff_of_true rfl none
    · rename_i stands
      exact iff_of_false nofun stands
  · rw [normalizeStanding,if_neg (not_or.mpr ⟨stays,nonempty⟩)]
  · exact ⟨normalizeBelow normalized,(normalSpelled normalized).1,normalizeNormal normalized⟩

/- Empty segments, both separators and two climbs in a row, of which the second takes away a name
from before the first one. -/
theorem detourNormal :
    let path := "./app\\views//forms\\../../models".toList
    let beyond := "app/../../models".toList
    ¬Climbs (segments path) ∧ standing (segments path) = ["app".toList,"models".toList] ∧
    normalize path = some "app/models".toList ∧
    normalize "app/models".toList = some "app/models".toList ∧
    normalize (path ++ "/../Car.php".toList) = some "app/Car.php".toList ∧
    Climbs (segments beyond) ∧ normalize beyond = none := by
  intro path beyond
  obtain ⟨_,none,stands,form,behind⟩ := normalFormStands
  have stays : ¬Climbs (segments path) := by decide +kernel
  have left : standing (segments path) = ["app".toList,"models".toList] := by decide +kernel
  have normal : normalize path = some "app/models".toList :=
    (stands path stays (by rw [left]; decide)).trans (by rw [left]; rfl)
  have climbs : Climbs (segments beyond) := by decide +kernel
  exact ⟨stays,left,normal,(form _ _ normal).2.2,(behind _ _ normal "../Car.php".toList).trans rfl,
    climbs,(none beyond).mpr (Or.inl climbs)⟩

end ProjectSlice.RelativePath
