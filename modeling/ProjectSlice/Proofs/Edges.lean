import Mathlib.Data.List.Forall2
import ProjectSlice.Proofs.Words

/-! Blanks at the edges of a text. Two texts are alike when they differ at most in the blanks at
their ends. What is read of a text takes literals, words and blanks one behind the other, and each of
these steps leaves alike what was alike before. Main statements: trimming takes the edges away, and
readings that are put one behind the other read alike again. -/
namespace ProjectSlice.Text
open Sequence

def Blank (t : Text) : Prop := ∀ c ∈ t, isBlank c = true
instance (t : Text) : Decidable (Blank t) := decidable_of_iff (t.all isBlank = true) List.all_eq_true

inductive EndAlike : Text → Text → Prop where
  | blank {t u : Text} (left : Blank t) (right : Blank u) : EndAlike t u
  | cons (c : Char) {t u : Text} (rest : EndAlike t u) : EndAlike (c::t) (c::u)

theorem blankNil : Blank [] := nofun

theorem blankTail {c : Char} {t : Text} (blank : Blank (c::t)) : isBlank c = true ∧ Blank t :=
  List.forall_mem_cons.mp blank

def isSolid (t : Text) : Bool := t != [] && !t.any isBlank

theorem solidIff {t : Text} : isSolid t = true ↔ t ≠ [] ∧ ∀ c ∈ t, isBlank c = false := by
  simp [isSolid]

theorem blankNotWord {c : Char} (blank : isBlank c = true) : isWord c = false :=
  Bool.eq_false_iff.mpr fun word => Bool.noConfusion (blank.symm.trans (wordNotBlank word))

theorem blankNotMark {mark c : Char} (solid : isBlank mark = false) (blank : isBlank c = true) :
    (c == mark) = false := by
  rw [beq_eq_false_iff_ne]
  rintro rfl
  exact Bool.noConfusion (solid.symm.trans blank)

namespace EndAlike

theorem appendBlank (t : Text) {back : Text} (blank : Blank back) : EndAlike t (t ++ back) := by
  induction t with
  | nil => exact .blank blankNil blank
  | cons c t ih => exact .cons c ih

theorem dropThrough {p : Char → Bool} (through : ∀ c, isBlank c = true → p c = true) {t u : Text}
    (alike : EndAlike t u) : EndAlike (t.dropWhile p) (u.dropWhile p) := by
  induction alike with
  | blank left right =>
    have gone {t : Text} (blank : Blank t) : t.dropWhile p = [] :=
      List.dropWhile_eq_nil_iff.mpr fun c mem => through c (blank c mem)
    rw [gone left,gone right]
    exact .blank blankNil blankNil
  | cons c rest ih =>
    rw [List.dropWhile_cons,List.dropWhile_cons]
    split
    · exact ih
    · exact .cons c rest

theorem takeThrough (p : Char → Bool) {t u : Text} (alike : EndAlike t u) :
    EndAlike (t.takeWhile p) (u.takeWhile p) := by
  induction alike with
  | blank left right =>
    have kept {t : Text} (blank : Blank t) : Blank (t.takeWhile p) :=
      fun c mem => blank c ((List.takeWhile_prefix p).subset mem)
    exact .blank (kept left) (kept right)
  | cons c rest ih =>
    rw [List.takeWhile_cons,List.takeWhile_cons]
    split
    · exact .cons c ih
    · exact .blank blankNil blankNil

/- A run of characters that are not blank ends where the blanks begin, if not before. -/
theorem spanSolid {p : Char → Bool} (solid : ∀ c, isBlank c = true → p c = false) {t u : Text}
    (alike : EndAlike t u) :
    t.takeWhile p = u.takeWhile p ∧ EndAlike (t.dropWhile p) (u.dropWhile p) := by
  induction alike with
  | blank left right =>
    have stops {t : Text} (blank : Blank t) : t.takeWhile p = [] ∧ t.dropWhile p = t := by
      cases t with
      | nil => exact ⟨rfl,rfl⟩
      | cons c t =>
        have stop := solid c (blankTail blank).1
        exact ⟨List.takeWhile_cons_of_neg (by simp [stop]),List.dropWhile_cons_of_neg (by simp [stop])⟩
    rw [(stops left).1,(stops right).1,(stops left).2,(stops right).2]
    exact ⟨rfl,.blank left right⟩
  | cons c rest ih =>
    rw [List.takeWhile_cons,List.takeWhile_cons,List.dropWhile_cons,List.dropWhile_cons]
    split
    · exact ⟨by rw [ih.1],ih.2⟩
    · exact ⟨rfl,.cons c rest⟩

theorem headAlike {p : Char → Bool} (solid : ∀ c, isBlank c = true → p c = false) {t u : Text}
    (alike : EndAlike t u) : t.head?.any p = u.head?.any p := by
  cases alike with
  | blank left right =>
    have none {t : Text} (blank : Blank t) : t.head?.any p = false := by
      cases t with
      | nil => rfl
      | cons c t => exact solid c (blankTail blank).1
    rw [none left,none right]
  | cons c rest => rfl

theorem allBlank {t u : Text} (alike : EndAlike t u) : t.all isBlank = u.all isBlank := by
  induction alike with
  | blank left right => rw [List.all_eq_true.mpr left,List.all_eq_true.mpr right]
  | cons c rest ih => rw [List.all_cons,List.all_cons,ih]

theorem onlyEnds {t u : Text} (alike : EndAlike t u) :
    ∃ inside a b, t = inside ++ a ∧ u = inside ++ b ∧ Blank a ∧ Blank b := by
  induction alike with
  | blank left right => exact ⟨[],_,_,rfl,rfl,left,right⟩
  | cons c rest ih =>
    obtain ⟨inside,a,b,rfl,rfl,left,right⟩ := ih
    exact ⟨c::inside,a,b,rfl,rfl,left,right⟩

theorem trimEndAlike {t u : Text} (alike : EndAlike t u) : trimEnd t = trimEnd u := by
  obtain ⟨inside,a,b,rfl,rfl,left,right⟩ := alike.onlyEnds
  rw [trimEnd,trimEnd,dropEndBehind left,dropEndBehind right]

theorem symm {t u : Text} (alike : EndAlike t u) : EndAlike u t := by
  induction alike with
  | blank left right => exact .blank right left
  | cons c rest ih => exact .cons c ih

/- What stands before a character that is not blank is the same in both. -/
theorem keptToSolid {inside rest u : Text} {c : Char} (solid : isBlank c = false)
    (alike : EndAlike (inside ++ c::rest) u) :
    ∃ behind, u = inside ++ c::behind ∧ EndAlike rest behind := by
  induction inside generalizing u with
  | nil =>
    cases alike with
    | blank left _ => exact Bool.noConfusion (solid.symm.trans (blankTail left).1)
    | cons _ rest => exact ⟨_,rfl,rest⟩
  | cons d inside ih =>
    cases alike with
    | blank left _ => exact Bool.noConfusion (solid.symm.trans (left c (by simp)))
    | cons _ rest =>
      obtain ⟨behind,rfl,same⟩ := ih rest
      exact ⟨behind,rfl,same⟩

theorem nilLeft {u : Text} (alike : EndAlike [] u) : Blank u := by
  cases alike with
  | blank _ right => exact right

end EndAlike

theorem trimEdges {front back : Text} (before : Blank front) (behind : Blank back) (line : Text) :
    trim (front ++ (line ++ back)) = trim line := by
  unfold trim trimStart
  rw [List.dropWhile_append_of_pos before]
  exact (EndAlike.dropThrough (fun _ => id) (.appendBlank line behind)).trimEndAlike.symm

section
variable {α β : Type}

/-- Two readings of texts that are alike: nothing in both, or related things with texts behind them
that are alike again. -/
def ReadsAlike (R : α → α → Prop) : Option (α × Text) → Option (α × Text) → Prop :=
  Option.Rel fun a b => R a.1 b.1 ∧ EndAlike a.2 b.2

/- Both sides go on or neither does. -/
theorem boundAlike {γ δ : Type} {P : γ → γ → Prop} {Q : δ → δ → Prop} {x y : Option γ}
    {f g : γ → Option δ} (first : Option.Rel P x y)
    (further : ∀ {a b}, P a b → Option.Rel Q (f a) (g b)) :
    Option.Rel Q (x.bind f) (y.bind g) := by
  cases first with
  | none => exact .none
  | some same => exact further same

/-- A reading that goes on behind something read already. -/
structure Follows (R : α → α → Prop) (f : Text → Option (α × Text)) : Prop where
  shorter : ∀ {t x rest}, f t = some (x,rest) → rest.length ≤ t.length
  alike : ∀ {t u}, EndAlike t u → ReadsAlike R (f t) (f u)

/-- A reading that reads something, which begins with no blank. -/
structure Begins (R : α → α → Prop) (f : Text → Option (α × Text)) : Prop where
  shorter : ∀ {t x rest}, f t = some (x,rest) → rest.length < t.length
  alike : ∀ {t u}, EndAlike t u → ReadsAlike R (f t) (f u)
  quiet : ∀ {c t}, isBlank c = true → f (c::t) = none

variable {R : α → α → Prop} {S : β → β → Prop} {f : Text → Option (α × Text)}

theorem Begins.follows (begins : Begins R f) : Follows R f :=
  ⟨fun found => Nat.le_of_lt (begins.shorter found),begins.alike⟩

theorem Follows.done (x : α) : Follows Eq fun t => some (x,t) :=
  ⟨fun found => by cases found; exact Nat.le_refl _,fun alike => .some ⟨rfl,alike⟩⟩

theorem Follows.bind {k : α → Text → Option (β × Text)} (first : Follows Eq f)
    (further : ∀ x, Follows S (k x)) :
    Follows S fun t => (f t).bind fun found => k found.1 found.2 := by
  constructor
  · intro t x rest found
    obtain ⟨⟨y,inner⟩,reads,goesOn⟩ := Option.bind_eq_some_iff.mp found
    exact Nat.le_trans ((further y).shorter goesOn) (first.shorter reads)
  · intro t u alike
    refine boundAlike (first.alike alike) ?_
    rintro ⟨x,t⟩ ⟨y,u⟩ ⟨rfl,rest⟩
    exact (further x).alike rest

theorem Begins.bind {k : α → Text → Option (β × Text)} (first : Begins Eq f)
    (further : ∀ x, Follows S (k x)) :
    Begins S fun t => (f t).bind fun found => k found.1 found.2 := by
  refine ⟨?_,(first.follows.bind further).alike,fun blank => by rw [first.quiet blank]; rfl⟩
  intro t x rest found
  obtain ⟨⟨y,inner⟩,reads,goesOn⟩ := Option.bind_eq_some_iff.mp found
  exact Nat.lt_of_le_of_lt ((further y).shorter goesOn) (first.shorter reads)

theorem afterAtBlank {d c : Char} (solid : isBlank d = false) (blank : isBlank c = true)
    (literal t : Text) : after? (d::literal) (c::t) = none := by
  rw [after?,if_neg]
  rintro rfl
  exact Bool.noConfusion (solid.symm.trans blank)

/- A literal without blanks is found in both texts or in neither. -/
theorem afterAlike {literal : Text} (solid : ∀ c ∈ literal, isBlank c = false) {t u : Text}
    (alike : EndAlike t u) : Option.Rel EndAlike (after? literal t) (after? literal u) := by
  induction literal generalizing t u with
  | nil => exact .some alike
  | cons d literal ih =>
    obtain ⟨first,others⟩ := List.forall_mem_cons.mp solid
    cases alike with
    | blank left right =>
      have nothing {t : Text} (blank : Blank t) : after? (d::literal) t = none := by
        cases t with
        | nil => rfl
        | cons c t => exact afterAtBlank first (blankTail blank).1 literal t
      rw [nothing left,nothing right]
      exact .none
    | cons c rest =>
      rw [after?,after?]
      split
      · exact ih others rest
      · exact .none

theorem Begins.after {literal : Text} (solid : isSolid literal = true) (further : Follows R f) :
    Begins R fun t => (after? literal t).bind f := by
  obtain ⟨nonempty,inside⟩ := solidIff.mp solid
  constructor
  · intro t x rest found
    obtain ⟨inner,reads,goesOn⟩ := Option.bind_eq_some_iff.mp found
    have less := further.shorter goesOn
    have positive := List.length_pos_of_ne_nil nonempty
    rw [afterIff.mp reads,List.length_append]
    omega
  · intro t u alike
    exact boundAlike (afterAlike inside alike) further.alike
  · intro c t blank
    obtain ⟨d,literal,rfl⟩ := List.exists_cons_of_ne_nil nonempty
    rw [afterAtBlank (inside d List.mem_cons_self) blank]
    rfl

theorem Follows.behindBlanks (ends : f [] = none) (further : Follows R f) :
    Follows R fun t => (afterBlanks? t).bind f := by
  constructor
  · intro t x rest found
    obtain ⟨inner,reads,goesOn⟩ := Option.bind_eq_some_iff.mp found
    refine Nat.le_trans (further.shorter goesOn) ?_
    unfold afterBlanks? at reads
    split at reads
    · contradiction
    · split at reads
      · cases reads
        exact Nat.le_succ_of_le (List.dropWhile_suffix _).length_le
      · contradiction
  · intro t u alike
    cases alike with
    | blank left right =>
      have nothing {t : Text} (blank : Blank t) : (afterBlanks? t).bind f = none := by
        cases t with
        | nil => rfl
        | cons c t =>
          obtain ⟨first,others⟩ := blankTail blank
          rw [afterBlanks?,if_pos first,List.dropWhile_eq_nil_iff.mpr others]
          exact ends
      rw [nothing left,nothing right]
      exact .none
    | cons c rest =>
      simp only [afterBlanks?]
      split
      · exact further.alike (.dropThrough (fun _ => id) rest)
      · exact .none

theorem Follows.behindTrim (further : Follows R f) : Follows R fun t => f (trimStart t) :=
  ⟨fun found => Nat.le_trans (further.shorter found) (List.dropWhile_suffix _).length_le,
    fun alike => further.alike (.dropThrough (fun _ => id) alike)⟩

theorem Follows.behindOption {literal : Text} (solid : isSolid literal = true)
    (further : Follows R f) : Follows R fun t => f ((after? literal t).getD t) := by
  constructor
  · intro t x rest found
    refine Nat.le_trans (further.shorter found) ?_
    cases reads : after? literal t with
    | none => exact Nat.le_refl _
    | some inner =>
      rw [afterIff.mp reads,List.length_append]
      exact Nat.le_add_left _ _
  · intro t u alike
    have both := afterAlike (solidIff.mp solid).2 alike
    generalize after? literal t = a at both ⊢
    generalize after? literal u = b at both ⊢
    cases both with
    | none => exact further.alike alike
    | some rest => exact further.alike rest

theorem Begins.classWord : Begins Eq classWord? := by
  constructor
  · intro t x rest found
    unfold classWord? at found
    split at found
    · rename_i c d word later spanned
      split at found
      · cases found
        rw [(spanWordIff.mp spanned).1]
        simp only [List.length_append,List.length_cons]
        omega
      · contradiction
    · contradiction
  · intro t u alike
    obtain ⟨same,rest⟩ := alike.spanSolid (p := isWord) fun _ => blankNotWord
    unfold classWord? spanWord
    rw [same]
    rcases u.takeWhile isWord with _ | ⟨c,_ | ⟨d,word⟩⟩
    · exact .none
    · exact .none
    · dsimp only
      split
      · exact .some ⟨rfl,rest⟩
      · exact .none
  · intro c t blank
    rw [classWord?,spanWord,List.takeWhile_cons_of_neg (by simp [blankNotWord blank])]

/- Where what was read has to end, the end is the same, whatever blanks come behind. -/
theorem Follows.ofKept
    (kept : ∀ {t u x rest}, EndAlike t u → f t = some (x,rest) →
      rest.length ≤ t.length ∧ ∃ behind, f u = some (x,behind) ∧ EndAlike rest behind) :
    Follows Eq f := by
  refine ⟨fun found => (kept (.appendBlank _ blankNil) found).1,fun {t u} alike => ?_⟩
  cases first : f t with
  | some found =>
    obtain ⟨_,behind,reads,rest⟩ := kept alike first
    rw [reads]
    exact .some ⟨rfl,rest⟩
  | none =>
    cases second : f u with
    | some found =>
      obtain ⟨_,behind,reads,_⟩ := kept alike.symm second
      cases first.symm.trans reads
    | none => exact .none

end

end ProjectSlice.Text
