import Mathlib.Data.List.Basic
import ProjectSlice.RelativePath

/-! Normal forms of paths below a root. What stands at the end of a walk are segments of the path
that name something. Main statements: a normal form lies below the root, segment by segment, and of
the paths whose segments are names exactly those without a backslash are normal forms. -/
namespace ProjectSlice

theorem Sequence.splitFree {α : Type} {stops : α → Bool} {s piece : List α}
    (mem : piece ∈ s.splitOnP stops) : ∀ x ∈ piece, stops x = false := by
  induction s generalizing piece with
  | nil =>
    rw [List.splitOnP_nil,List.mem_singleton] at mem
    subst mem
    exact nofun
  | cons y s ih =>
    rw [List.splitOnP_cons_eq_if_modifyHead] at mem
    split at mem
    · rcases List.mem_cons.mp mem with rfl | later
      · exact nofun
      · exact ih later
    · rename_i goesOn
      obtain ⟨first,rest,pieces⟩ := List.exists_cons_of_ne_nil (List.splitOnP_ne_nil stops s)
      rw [pieces] at ih
      rw [pieces,List.modifyHead_cons,List.mem_cons] at mem
      rcases mem with rfl | later
      · exact List.forall_mem_cons.mpr ⟨Bool.eq_false_iff.mpr goesOn,ih List.mem_cons_self⟩
      · exact ih (List.mem_cons_of_mem _ later)

theorem Sequence.memIntercalate {α : Type} {mark x : α} {parts : List (List α)}
    (mem : x ∈ [mark].intercalate parts) : x = mark ∨ ∃ part ∈ parts, x ∈ part := by
  induction parts with
  | nil => contradiction
  | cons part parts ih =>
    by_cases last : parts = []
    · subst last
      rw [List.intercalate_singleton] at mem
      exact Or.inr ⟨part,List.mem_cons_self,mem⟩
    · rw [List.intercalate_cons_of_ne_nil last,List.mem_append,List.mem_append,
        List.mem_singleton] at mem
      rcases mem with (first | same) | later
      · exact Or.inr ⟨part,List.mem_cons_self,first⟩
      · exact Or.inl same
      · exact (ih later).imp_right fun ⟨p,among,inside⟩ => ⟨p,List.mem_cons_of_mem _ among,inside⟩

theorem Sequence.partIntercalate {α : Type} {mark : α} {part : List α} {parts : List (List α)}
    (mem : part ∈ parts) : part <:+: [mark].intercalate parts := by
  induction parts with
  | nil => contradiction
  | cons first parts ih =>
    by_cases last : parts = []
    · subst last
      have whole : [mark].intercalate [first] = first := List.intercalate_singleton
      exact whole.symm ▸ (List.mem_singleton.mp mem ▸ List.infix_rfl)
    · rw [List.intercalate_cons_of_ne_nil last]
      rcases List.mem_cons.mp mem with rfl | later
      · exact ((List.prefix_append _ _).trans (List.prefix_append _ _)).isInfix
      · exact (ih later).trans (List.suffix_append _ _).isInfix

namespace RelativePath
open Sequence Text

def IsName (segment : Text) : Prop := segment ≠ [] ∧ segment ≠ ['.'] ∧ segment ≠ ['.','.']

/-- A path that names something below the root, and stays below it on the way there. -/
def LiesBelow (path : Text) : Prop := ∀ segment ∈ path.splitOn '/', IsName segment

theorem liesBelowJoined {segments : List Text} (nonempty : segments ≠ [])
    (names : ∀ segment ∈ segments, IsName segment ∧ '/' ∉ segment) :
    LiesBelow (joined ['/'] segments) := by
  unfold LiesBelow joined
  rw [List.splitOn_intercalate '/' (fun segment mem => (names segment mem).2) nonempty]
  exact fun segment mem => (names segment mem).1

def IsPlain (segment : Text) : Prop := IsName segment ∧ ∀ c ∈ segment, isSeparator c = false

theorem plainIff {segment : Text} :
    IsPlain segment ↔ (IsName segment ∧ '/' ∉ segment) ∧ '\\' ∉ segment := by
  rw [IsPlain,and_assoc]
  refine and_congr_right fun _ => ⟨fun free => ?_,fun ⟨noSlash,noBackslash⟩ c mem => ?_⟩
  · exact ⟨fun mem => absurd (free _ mem) (by decide),fun mem => absurd (free _ mem) (by decide)⟩
  · rw [isSeparator,Bool.or_eq_false_iff,beq_eq_false_iff_ne,beq_eq_false_iff_ne]
    exact ⟨fun same => noSlash (same ▸ mem),fun same => noBackslash (same ▸ mem)⟩

theorem walkNames {standing segments out : List Text} (names : ∀ segment ∈ standing, IsPlain segment)
    (free : ∀ segment ∈ segments, ∀ c ∈ segment, isSeparator c = false)
    (done : walk standing segments = some out) : ∀ segment ∈ out, IsPlain segment := by
  induction segments generalizing standing with
  | nil =>
    cases Option.some.inj done
    simpa using names
  | cons s rest ih =>
    obtain ⟨first,free⟩ := List.forall_mem_cons.mp free
    unfold walk at done
    split at done
    · exact ih names free done
    · rename_i kept
      split at done
      · split at done
        · contradiction
        · exact ih (List.forall_mem_cons.mp names).2 free done
      · rename_i named
        rw [not_or] at kept
        have new : IsPlain s := ⟨⟨kept.1,kept.2,named⟩,first⟩
        exact ih (List.forall_mem_cons.mpr ⟨new,names⟩) free done

theorem normalizePlain {path normal : Text} (normalized : normalize path = some normal) :
    ∃ segments : List Text, segments ≠ [] ∧ (∀ segment ∈ segments, IsPlain segment) ∧
      normal = joined ['/'] segments := by
  unfold normalize at normalized
  split at normalized
  · contradiction
  · contradiction
  · rename_i standing nonempty done
    cases Option.some.inj normalized
    have plain := walkNames (fun _ mem => absurd mem List.not_mem_nil) (fun _ => splitFree) done
    exact ⟨standing,fun empty => nonempty (by rw [empty]),plain,rfl⟩

theorem normalizeBelow {path normal : Text} (normalized : normalize path = some normal) :
    LiesBelow normal := by
  obtain ⟨segments,nonempty,plain,rfl⟩ := normalizePlain normalized
  exact liesBelowJoined nonempty fun segment mem => (plainIff.mp (plain segment mem)).1

theorem walkOfNames {standing segments : List Text} (names : ∀ segment ∈ segments, IsName segment) :
    walk standing segments = some (standing.reverse ++ segments) := by
  induction segments generalizing standing with
  | nil => rw [walk,List.append_nil]
  | cons s rest ih =>
    obtain ⟨⟨nonempty,notHere,notUp⟩,names⟩ := List.forall_mem_cons.mp names
    unfold walk
    rw [if_neg (not_or.mpr ⟨nonempty,notHere⟩),if_neg notUp,ih names,List.reverse_cons,
      List.append_assoc]
    rfl

theorem segmentsJoined {parts : List Text} (nonempty : parts ≠ [])
    (free : ∀ part ∈ parts, ∀ c ∈ part, isSeparator c = false) :
    segments (joined ['/'] parts) = parts := by
  induction parts with
  | nil => contradiction
  | cons part parts ih =>
    obtain ⟨first,rest⟩ := List.forall_mem_cons.mp free
    unfold segments joined
    by_cases last : parts = []
    · subst last
      rw [List.intercalate_singleton]
      exact List.splitOnP_eq_singleton first
    · rw [List.intercalate_cons_of_ne_nil last,List.append_assoc,List.singleton_append,
        List.splitOnP_append_cons_of_forall_mem first '/' rfl]
      exact congrArg (part :: ·) (ih last rest)

theorem normalizeOfPlain {parts : List Text} (nonempty : parts ≠ [])
    (plain : ∀ part ∈ parts, IsPlain part) :
    normalize (joined ['/'] parts) = some (joined ['/'] parts) := by
  obtain ⟨first,rest,rfl⟩ := List.exists_cons_of_ne_nil nonempty
  have walked : walk [] (first::rest) = some (first::rest) :=
    walkOfNames fun part mem => (plain part mem).1
  rw [normalize,segmentsJoined nonempty fun part mem => (plain part mem).2,walked]

theorem normalizeJoinedIff {parts : List Text} (nonempty : parts ≠ [])
    (names : ∀ part ∈ parts, IsName part ∧ '/' ∉ part) :
    normalize (joined ['/'] parts) = some (joined ['/'] parts) ↔
      '\\' ∉ joined ['/'] parts := by
  constructor
  · intro normalized mem
    obtain ⟨segments,_,plain,same⟩ := normalizePlain normalized
    rw [same] at mem
    rcases memIntercalate mem with slash | ⟨segment,among,inside⟩
    · cases slash
    · exact (plainIff.mp (plain segment among)).2 inside
  · intro noBackslash
    refine normalizeOfPlain nonempty fun part mem => plainIff.mpr ⟨names part mem,fun inside => ?_⟩
    exact noBackslash ((partIntercalate mem).subset inside)

end RelativePath
end ProjectSlice
