import ProjectSlice.Proofs.Path

/-! Paths read from a directory. A relative path read from a directory has the components of the
directory and then its own, so any run over components that passes a `.` by goes on where the run over
the directory has ended. Main statement: so does cleaning, and what is cleaned away depends on the two
in turn. -/
namespace ProjectSlice.Path

theorem segmentsCut (p : Path) : ∃ first rest, segments p = first::rest ∧
    components p = (firstComponent? p.isAbsolute first).toList ++ rest.filterMap innerComponent? := by
  obtain ⟨first,rest,cut⟩ := List.exists_cons_of_ne_nil (List.splitOn_ne_nil slash p)
  have whole : segments p = first::rest := cut
  exact ⟨first,rest,whole,by rw [components,whole]⟩

theorem segmentsAtSlash (front q : Path) :
    segments (front ++ slash::q) = segments front ++ segments q :=
  List.splitOn_append_cons_self front q

theorem componentsAtSlash {front : Path} (nonempty : front ≠ []) (q : Path) :
    components (front ++ slash::q) =
      components front ++ (segments q).filterMap innerComponent? := by
  obtain ⟨first,rest,cut,read⟩ := segmentsCut front
  have absolute : isAbsolute (front ++ slash::q) = isAbsolute front := by
    cases front with
    | nil => contradiction
    | cons b front => rfl
  rw [components,segmentsAtSlash,cut,absolute,read]
  simp

theorem componentsAtRoot (q : Path) :
    components (slash::q) = .root::(segments q).filterMap innerComponent? := by
  rw [components,← List.nil_append (slash::q),segmentsAtSlash]
  rfl

section
variable {State : Type} {step : State → Component → State}
  (passes : ∀ state, step state .here = state) {p : Path} (relative : isAbsolute p = false)
include passes relative

/- A `.` at the beginning of a relative path is a component, and makes no difference to a run that
passes it by. -/
theorem foldRelative (start : State) :
    ((segments p).filterMap innerComponent?).foldl step start = (components p).foldl step start := by
  obtain ⟨first,rest,cut,read⟩ := segmentsCut p
  rw [cut,read,relative]
  simp only [firstComponent?,Bool.false_eq_true,if_false]
  by_cases here : first = [dot]
  · subst here
    simp [innerComponent?,passes]
  · rw [if_neg here]
    cases inner : innerComponent? first <;> simp [inner]

theorem foldJoin (base : Path) (start : State) :
    (components (base.join p)).foldl step start =
      (components p).foldl step ((components base).foldl step start) := by
  have behind {front : Path} (nonempty : front ≠ []) :
      (components (front ++ slash::p)).foldl step start =
        (components p).foldl step ((components front).foldl step start) := by
    rw [componentsAtSlash nonempty,List.foldl_append,foldRelative passes relative]
  unfold join
  rw [if_neg (Bool.eq_false_iff.mp relative)]
  split
  · rename_i ends
    rcases ends with rfl | last
    · rfl
    · obtain ⟨front,rfl⟩ := List.getLast?_eq_some_iff.mp last
      rw [List.append_assoc,List.singleton_append]
      by_cases top : front = []
      · subst top
        rw [List.nil_append,componentsAtRoot,List.foldl_cons,foldRelative passes relative]
        rfl
      · have same : components (front ++ [slash]) = components front :=
          (componentsAtSlash top []).trans (List.append_nil _)
        rw [behind top,same]
  · rename_i further
    exact behind (not_or.mp further).1

end

theorem cleanPasses (standing : List Component) : cleanStep standing .here = standing := rfl

theorem componentsCleanJoin {p : Path} (relative : isAbsolute p = false) (base : Path) :
    components (base.join p).clean =
      ((components p).foldl cleanStep (components base.clean).reverse).reverse := by
  rw [componentsClean,componentsClean,foldJoin cleanPasses relative,List.reverse_reverse]

end ProjectSlice.Path
