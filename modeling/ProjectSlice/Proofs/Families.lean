import ProjectSlice.Proofs.Extraction

/-! Kinds of references side by side. All kinds are recorded in one list, but a use is known by its
name and its kind, so no kind hides what another one shows. The statement about a whole text comes
from one about a line: of the uses of a kind that a line shows, the first ones are the same however
often the kind is asked for. -/
namespace ProjectSlice.Reference
open Sequence Text

def countedOn (kind : ReferenceKind) (line : Text × Nat) : List Reference :=
  (mentions [kind] line).filter (Counts ·)

theorem mentionsCons (kind : ReferenceKind) (kinds : List ReferenceKind) (line : Text × Nat) :
    mentions (kind::kinds) line = mentions [kind] line ++ mentions kinds line := by
  unfold mentions
  split
  · rfl
  · simp

theorem kindMentioned {kind : ReferenceKind} {line : Text × Nat} {r : Reference}
    (mem : r ∈ mentions [kind] line) : r.kind = kind := by
  unfold mentions at mem
  split at mem
  · contradiction
  · simp only [List.flatMap_singleton] at mem
    obtain ⟨_,_,rfl⟩ := List.mem_map.mp mem
    rfl

theorem countedOfKind (kind other : ReferenceKind) (line : Text × Nat) :
    (countedOn other line).filter (·.kind = kind) =
      if other = kind then countedOn other line else [] := by
  split
  · rename_i same
    rw [List.filter_eq_self]
    intro r mem
    exact decide_eq_true ((kindMentioned (List.mem_of_mem_filter mem)).trans same)
  · rename_i different
    rw [List.filter_eq_nil_iff]
    intro r mem own
    exact different ((kindMentioned (List.mem_of_mem_filter mem)).symm.trans (of_decide_eq_true own))

/- A kind that is asked for once more mentions the same uses once more. -/
theorem firstsOfKind (kinds : List ReferenceKind) (kind : ReferenceKind) (line : Text × Nat) :
    firsts use (((mentions kinds line).filter (Counts ·)).filter (·.kind = kind)) =
      if kind ∈ kinds then firsts use (countedOn kind line) else [] := by
  induction kinds with
  | nil => simp [mentions,firsts]
  | cons other kinds ih =>
    rw [mentionsCons,List.filter_append,List.filter_append]
    change firsts use ((countedOn other line).filter (·.kind = kind) ++ _) = _
    rw [countedOfKind]
    by_cases same : other = kind
    · subst same
      rw [if_pos rfl,if_pos List.mem_cons_self]
      refine firstsAgain fun y mem => ?_
      have key := memKeysFirsts.mpr (List.mem_map_of_mem (f := use) mem)
      rw [ih] at key
      split at key
      · exact memKeysFirsts.mp key
      · contradiction
    · rw [if_neg same,List.nil_append,ih]
      simp only [List.mem_cons,Ne.symm same,false_or]

theorem extractOfKind (kinds : List ReferenceKind) (source : Text) (kind : ReferenceKind) :
    (extract kinds source).filter (·.kind = kind) =
      firsts use (((lines source).zipIdx 1).flatMap fun line =>
        ((mentions kinds line).filter (Counts ·)).filter (·.kind = kind)) := by
  have split := firstsFilter use (fun key => decide (key.2 = kind))
    ((((lines source).zipIdx 1).flatMap (mentions kinds)).filter (Counts ·))
  rw [List.filter_flatMap,List.filter_flatMap] at split
  rw [extractFirsts,List.filter_flatMap]
  exact split.symm

/-- What an extraction reports of one kind is what the kind reports on its own, whichever kinds are
asked for beside it. -/
theorem extractKindAlone (kinds : List ReferenceKind) (source : Text) (kind : ReferenceKind) :
    (extract kinds source).filter (·.kind = kind) =
      (if kind ∈ kinds then extract [kind] source else []) ∧
    ∀ others : List ReferenceKind, (kind ∈ others ↔ kind ∈ kinds) →
      (extract others source).filter (·.kind = kind) =
        (extract kinds source).filter (·.kind = kind) := by
  have alone (kinds : List ReferenceKind) : (extract kinds source).filter (·.kind = kind) =
      if kind ∈ kinds then extract [kind] source else [] := by
    rw [extractOfKind]
    by_cases asked : kind ∈ kinds
    · rw [if_pos asked,extractFirsts,List.filter_flatMap]
      refine firstsFlatMap fun line _ => ?_
      rw [firstsOfKind,if_pos asked]
      rfl
    · have unasked : ∀ line ∈ (lines source).zipIdx 1,
          firsts use (((mentions kinds line).filter (Counts ·)).filter (·.kind = kind)) =
            firsts use [] := by
        intro line _
        rw [firstsOfKind,if_neg asked]
        rfl
      rw [if_neg asked,firstsFlatMap unasked,List.flatMap_eq_nil_iff.mpr fun _ _ => rfl]
      rfl
  refine ⟨alone kinds,fun others same => ?_⟩
  rw [alone kinds,alone others]
  simp only [same]

end ProjectSlice.Reference
