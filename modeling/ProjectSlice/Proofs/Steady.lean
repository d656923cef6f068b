import ProjectSlice.Proofs.Edges
import ProjectSlice.Proofs.Search

/-! Searches in lines with blanks around them. A recogniser is steady when it begins with no blank
and reads alike where texts are alike, so a search passes over the blanks before a line and comes to
an end in the blanks behind it. Main statements: a steady recogniser finds the same things in a line,
or the same first thing, whatever blanks stand around the line. -/
namespace ProjectSlice.Text

section
variable {α : Type} {R : α → α → Prop} {read : Recogniser α}

/-- A recogniser that begins with no blank, wherever a word can begin just as where none stands
before. -/
structure Opens (read : Recogniser α) : Prop where
  opening : ∀ {a b}, opensWord a = opensWord b → read a = read b
  quiet : ∀ {before c t}, isBlank c = true → read before (c::t) = none

structure Steady (R : α → α → Prop) (read : Recogniser α) : Prop extends Opens read where
  shortens : Shortens read
  alike : ∀ {before t u}, EndAlike t u → ReadsAlike R (read before t) (read before u)

theorem Begins.steadyAnywhere {f : Text → Option (α × Text)} (begins : Begins R f) :
    Steady R fun _ => f :=
  ⟨⟨fun _ => rfl,begins.quiet⟩,fun _ _ _ _ => begins.shorter,begins.alike⟩

theorem Begins.steadyAtWord {f : Text → Option (α × Text)} (begins : Begins R f) :
    Steady R fun before t => if opensWord before then f t else none := by
  refine ⟨⟨fun same => by rw [same],?_⟩,?_,?_⟩
  · intro before c t blank
    rw [begins.quiet blank,ite_self]
  · intro before t x rest found
    obtain ⟨_,reads⟩ := Option.ite_none_right_eq_some.mp found
    exact begins.shorter reads
  · intro before t u alike
    split
    · exact begins.alike alike
    · exact .none

theorem opensBehind {front : Text} (blank : Blank front) :
    opensWord (front.getLast?.or none) = opensWord none := by
  cases last : front.getLast? with
  | none => rfl
  | some c =>
    have first := blank c (List.mem_of_getLast? last)
    simp [opensWord,blankNotWord first]

theorem Opens.searchFront (opens : Opens read) {front : Text} (blank : Blank front) (t : Text) :
    search read (front ++ t) = search read t := by
  have quiet : ∀ before c inner, c::inner <:+ front → read before (c::inner ++ t) = none :=
    fun before c inner inside => opens.quiet (blank c (inside.subset List.mem_cons_self))
  unfold search
  rw [List.length_append,searchFromQuiet quiet]
  cases t with
  | nil => rfl
  | cons c t => rw [List.length_cons,searchFrom,searchFrom,opens.opening (opensBehind blank)]

theorem Opens.firstFromBlank (opens : Opens read) {t : Text} (blank : Blank t)
    (before : Option Char) : firstFrom? read before t = none := by
  induction t generalizing before with
  | nil => rfl
  | cons c t ih =>
    obtain ⟨first,others⟩ := blankTail blank
    rw [firstFrom?,opens.quiet first]
    exact ih others _

theorem Opens.firstFront (opens : Opens read) {front : Text} (blank : Blank front) (t : Text) :
    first? read (front ++ t) = first? read t := by
  have goesOn (before : Option Char) :
      firstFrom? read before (front ++ t) = firstFrom? read (front.getLast?.or before) t := by
    induction front generalizing before with
    | nil => rfl
    | cons c front ih =>
      obtain ⟨first,others⟩ := blankTail blank
      rw [List.cons_append,firstFrom?,opens.quiet first]
      rw [lastBehind]
      exact ih others (some c)
  unfold first?
  rw [goesOn]
  cases t with
  | nil => rfl
  | cons c t => rw [firstFrom?,firstFrom?,opens.opening (opensBehind blank)]

theorem Opens.searchFromBlank (opens : Opens read) {t : Text} (blank : Blank t) (room : Nat)
    (before : Option Char) : searchFrom read room before t = [] := by
  induction room generalizing before t with
  | zero => rfl
  | succ room ih =>
    cases t with
    | nil => rfl
    | cons c t =>
      obtain ⟨first,others⟩ := blankTail blank
      rw [searchFrom,opens.quiet first]
      exact ih others _

theorem Steady.searchFromAlike (steady : Steady R read) {t u : Text} (alike : EndAlike t u)
    {m n : Nat} (roomT : t.length ≤ m) (roomU : u.length ≤ n) (before : Option Char) :
    List.Forall₂ R (searchFrom read m before t) (searchFrom read n before u) := by
  induction m generalizing t u n before with
  | zero =>
    obtain rfl := List.eq_nil_of_length_eq_zero (Nat.le_zero.mp roomT)
    rw [steady.searchFromBlank alike.nilLeft]
    exact .nil
  | succ m ih =>
    cases alike with
    | blank left right =>
      rw [steady.searchFromBlank left,steady.searchFromBlank right]
      exact .nil
    | @cons c t u rest =>
      obtain ⟨n,rfl⟩ : ∃ k, n = k + 1 := Nat.exists_eq_add_one.mpr (Nat.lt_of_lt_of_le (by simp) roomU)
      have lessT : t.length ≤ m := Nat.le_of_succ_le_succ roomT
      have lessU : u.length ≤ n := Nat.le_of_succ_le_succ roomU
      have both : ReadsAlike R (read before (c::t)) (read before (c::u)) :=
        steady.alike (.cons c rest)
      rw [searchFrom,searchFrom]
      generalize first : read before (c::t) = a at both ⊢
      generalize second : read before (c::u) = b at both ⊢
      cases both with
      | none => exact ih rest lessT lessU (some c)
      | some same =>
        have shortT := Nat.le_of_lt_succ (steady.shortens _ _ _ _ first)
        have shortU := Nat.le_of_lt_succ (steady.shortens _ _ _ _ second)
        exact .cons same.1 (ih same.2 (Nat.le_trans shortT lessT) (Nat.le_trans shortU lessU) none)

theorem Steady.firstFromAlike (steady : Steady R read) {t u : Text} (alike : EndAlike t u)
    (before : Option Char) :
    Option.Rel R (firstFrom? read before t) (firstFrom? read before u) := by
  induction alike generalizing before with
  | blank left right =>
    rw [steady.firstFromBlank left,steady.firstFromBlank right]
    exact .none
  | @cons c t u rest ih =>
    have both : ReadsAlike R (read before (c::t)) (read before (c::u)) :=
      steady.alike (.cons c rest)
    rw [firstFrom?,firstFrom?]
    generalize read before (c::t) = a at both ⊢
    generalize read before (c::u) = b at both ⊢
    cases both with
    | none => exact ih (some c)
    | some same => exact .some same.1

theorem Steady.searchAlike (steady : Steady R read) {t u : Text} (alike : EndAlike t u) :
    List.Forall₂ R (search read t) (search read u) :=
  steady.searchFromAlike alike (Nat.le_refl _) (Nat.le_refl _) none

variable {front back : Text}

theorem Steady.searchEdges (steady : Steady R read) (before : Blank front) (behind : Blank back)
    (line : Text) : List.Forall₂ R (search read (front ++ (line ++ back))) (search read line) := by
  rw [steady.searchFront before]
  exact steady.searchAlike (EndAlike.appendBlank line behind).symm

theorem Steady.searchSame (steady : Steady Eq read) (before : Blank front) (behind : Blank back)
    (line : Text) : search read (front ++ (line ++ back)) = search read line := by
  have same := steady.searchEdges before behind line
  rwa [List.forall₂_eq_eq_eq] at same

theorem Steady.firstSame (steady : Steady Eq read) (before : Blank front) (behind : Blank back)
    (line : Text) : first? read (front ++ (line ++ back)) = first? read line := by
  rw [steady.firstFront before]
  have same := steady.firstFromAlike (EndAlike.appendBlank line behind).symm none
  unfold first?
  generalize firstFrom? read none (line ++ back) = a at same ⊢
  generalize firstFrom? read none line = b at same ⊢
  cases same with
  | none => rfl
  | some same => rw [same]

end

end ProjectSlice.Text
