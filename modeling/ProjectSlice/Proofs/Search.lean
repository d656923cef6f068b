import Mathlib.Data.List.Basic
import ProjectSlice.Text.Search

/-! What a search finds. A search passes over the text in front of a place, and whatever it reads
there may end behind the place; where nothing does, the search comes by the place. Main statement:
a thing that can be read at a place is found there unless something read before it reaches over
the beginning of the place; a text at no place of which anything can be read is passed over. -/
namespace ProjectSlice.Text

variable {α : Type}

def EndsBefore (read : Recogniser α) (front t : Text) : Prop :=
  ∀ before c inner, c::inner <:+ front → ∀ x rest,
    read before (c::inner ++ t) = some (x,rest) → ∃ further, rest = further ++ t ∧ further <:+ inner

theorem endsBeforeSuffix {read : Recogniser α} {front inner t : Text}
    (clear : EndsBefore read front t) (suffix : inner <:+ front) : EndsBefore read inner t :=
  fun before c further inside => clear before c further (inside.trans suffix)

theorem lastBehind (c : Char) (t : Text) (before : Option Char) :
    (c::t).getLast?.or before = t.getLast?.or (some c) := by
  rw [List.getLast?_cons]
  cases t.getLast? <;> rfl

theorem lastOfSuffix {inner front : Text} (suffix : inner <:+ front) {c : Char}
    (last : inner.getLast? = some c) : front.getLast? = some c := by
  obtain ⟨start,rfl⟩ := suffix
  rw [List.getLast?_append,last]
  rfl

theorem memSearchFrom {read : Recogniser α} {t : Text} {x : α} {rest : Text} (nonempty : t ≠ [])
    {front : Text} (clear : EndsBefore read front t) {room : Nat}
    (enough : (front ++ t).length ≤ room) {before : Option Char}
    (found : ∀ b, b = none ∨ b = front.getLast?.or before → read b t = some (x,rest)) :
    x ∈ searchFrom read room before (front ++ t) := by
  induction room generalizing before front with
  | zero =>
    have empty := List.eq_nil_of_length_eq_zero (Nat.le_zero.mp enough)
    exact absurd (List.append_eq_nil_iff.mp empty).2 nonempty
  | succ room ih =>
    cases front with
    | nil =>
      obtain ⟨c,t,rfl⟩ := List.exists_cons_of_ne_nil nonempty
      simp only [List.nil_append,searchFrom,found before (Or.inr rfl)]
      exact List.mem_cons_self
    | cons c front =>
      have less : (front ++ t).length ≤ room := Nat.le_of_succ_le_succ enough
      rw [List.cons_append,searchFrom]
      split
      · rename_i y later reads
        obtain ⟨further,rfl,inside⟩ := clear before c front List.suffix_rfl y later reads
        have shorter : (further ++ t).length ≤ (front ++ t).length := by
          simpa using inside.length_le
        have within : further <:+ c::front := inside.trans (List.suffix_cons c front)
        refine List.mem_cons_of_mem _ (ih (endsBeforeSuffix clear within) (Nat.le_trans shorter less) ?_)
        intro b place
        cases last : further.getLast? with
        | none => exact found b (Or.inl (by simpa [last] using place))
        | some d =>
          refine found b (place.imp_right fun same => ?_)
          rw [same,last,lastOfSuffix within last]
          rfl
      · refine ih (endsBeforeSuffix clear (List.suffix_cons c front)) less ?_
        intro b place
        refine found b (place.imp_right fun same => ?_)
        rw [same,lastBehind]

/- Where the place opens the line or follows something read, nothing counts as standing before it. -/
theorem memSearch {read : Recogniser α} {front t : Text} {x : α} {rest : Text} (nonempty : t ≠ [])
    (clear : EndsBefore read front t)
    (found : ∀ before, before = none ∨ before = front.getLast? → read before t = some (x,rest)) :
    x ∈ search read (front ++ t) := by
  refine memSearchFrom nonempty clear (Nat.le_refl _) fun b place => found b ?_
  simpa using place

theorem searchFromQuiet {read : Recogniser α} {front t : Text}
    (quiet : ∀ before c inner, c::inner <:+ front → read before (c::inner ++ t) = none)
    (room : Nat) (before : Option Char) :
    searchFrom read (front.length + room) before (front ++ t) =
      searchFrom read room (front.getLast?.or before) t := by
  induction front generalizing before with
  | nil => simp
  | cons c front ih =>
    have next := ih (fun before d inner inside =>
      quiet before d inner (inside.trans (List.suffix_cons c front))) (some c)
    have nothing := quiet before c front List.suffix_rfl
    have length : (c::front).length + room = (front.length + room) + 1 := by
      rw [List.length_cons]
      omega
    rw [length,List.cons_append,searchFrom,← List.cons_append,nothing,next,lastBehind]

theorem firstHere {read : Recogniser α} {before : Option Char} {c : Char} {t : Text} {x : α}
    {rest : Text} (reads : read before (c::t) = some (x,rest)) :
    firstFrom? read before (c::t) = some x := by
  simp [firstFrom?,reads]

theorem firstReads {read : Recogniser α} {before : Option Char} {t : Text} {x : α}
    (found : firstFrom? read before t = some x) :
    ∃ b inner rest, inner <:+ t ∧ read b inner = some (x,rest) := by
  induction t generalizing before with
  | nil => contradiction
  | cons c t ih =>
    rw [firstFrom?] at found
    split at found
    · rename_i y rest reads
      cases Option.some.inj found
      exact ⟨before,_,rest,List.suffix_rfl,reads⟩
    · obtain ⟨b,inner,rest,inside,reads⟩ := ih found
      exact ⟨b,inner,rest,inside.trans (List.suffix_cons c t),reads⟩

end ProjectSlice.Text
