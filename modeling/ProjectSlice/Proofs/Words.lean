import Mathlib.Data.List.TakeDrop
import Mathlib.Data.List.TakeWhile
import ProjectSlice.Text.Basic
import ProjectSlice.Text.Word

/-! Words in a line. No blank belongs to a word, so trimming leaves a word as it is, and a word is
read back where something follows it that belongs to no word. -/
namespace ProjectSlice.Text
open Sequence

def IsWord (t : Text) : Prop := t ≠ [] ∧ ∀ c ∈ t, isWord c = true
instance (t : Text) : Decidable (IsWord t) :=
  decidable_of_iff (t ≠ [] ∧ t.all isWord = true) (and_congr_right' List.all_eq_true)

def blankPoints : List Nat :=
  [9,10,11,12,13,0x20,0x85,0xA0,0x1680,0x2000,0x2001,0x2002,0x2003,0x2004,0x2005,0x2006,0x2007,
    0x2008,0x2009,0x200A,0x2028,0x2029,0x202F,0x205F,0x3000]

theorem pointOfBlank {c : Char} (blank : isBlank c = true) : c.toNat ∈ blankPoints := by
  simp only [isBlank,Bool.or_eq_true,Bool.and_eq_true,decide_eq_true_eq,beq_iff_eq] at blank
  simp only [blankPoints,List.mem_cons,List.not_mem_nil,or_false]
  omega

theorem wordNotBlank {c : Char} (word : isWord c = true) : isBlank c = false := by
  have points : ∀ n ∈ blankPoints, isWord (Char.ofNat n) = false := by
    decide +kernel
  rw [Bool.eq_false_iff]
  intro blank
  have outside := points _ (pointOfBlank blank)
  rw [Char.ofNat_toNat] at outside
  exact Bool.noConfusion (word.symm.trans outside)

theorem dropNone {p : Char → Bool} {t : Text} (none : ∀ c ∈ t, p c = false) : t.dropWhile p = t := by
  cases t with
  | nil => rfl
  | cons c t => simp [none c List.mem_cons_self]

theorem dropHead (p : Char → Bool) (t : Text) : (t.dropWhile p).head?.any p = false := by
  have stop := List.head?_dropWhile_not p t
  cases other : (t.dropWhile p).head? with
  | none => rfl
  | some c => simpa [other] using stop

theorem dropToMark (mark : Char) (t : Text) : t.dropWhile (· != mark) = [] ∨
    ∃ back, t.dropWhile (· != mark) = mark::back := by
  have first := dropHead (· != mark) t
  cases rest : t.dropWhile (· != mark) with
  | nil => exact .inl rfl
  | cons c back =>
    rw [rest] at first
    obtain rfl : c = mark := by simpa using first
    exact .inr ⟨back,rfl⟩

theorem trimSolid {t : Text} (solid : ∀ c ∈ t, isBlank c = false) : trim t = t := by
  have reversed : ∀ c ∈ t.reverse, isBlank c = false := by simpa using solid
  rw [trim,trimStart,dropNone solid,trimEnd,dropEndWhile,dropNone reversed,List.reverse_reverse]

theorem spanAppend {p : Char → Bool} {front rest : Text} (all : ∀ c ∈ front, p c = true)
    (stop : rest.head?.any p = false) : (front ++ rest).span p = (front,rest) := by
  rw [List.span_eq_takeWhile_dropWhile,List.takeWhile_append_of_pos all,
    List.dropWhile_append_of_pos all]
  cases rest with
  | nil => simp
  | cons c rest =>
    have other : p c = false := stop
    simp [other]

theorem spanWordAppend {word rest : Text} (all : ∀ c ∈ word, isWord c = true)
    (stop : rest.head?.any isWord = false) : spanWord (word ++ rest) = (word,rest) := by
  rw [spanWord,← List.span_eq_takeWhile_dropWhile]
  exact spanAppend all stop

theorem spanWordIff {t word rest : Text} :
    spanWord t = (word,rest) ↔ t = word ++ rest ∧ (∀ c ∈ word, isWord c = true) ∧
      rest.head?.any isWord = false := by
  constructor
  · intro spanned
    obtain ⟨rfl,rfl⟩ := Prod.mk.inj spanned
    exact ⟨List.takeWhile_append_dropWhile.symm,fun _ => List.mem_takeWhile_imp,dropHead isWord t⟩
  · rintro ⟨rfl,all,stop⟩
    exact spanWordAppend all stop

theorem dropEndLast (p : Char → Bool) {c : Char} (stop : p c = false) (t : Text) :
    dropEndWhile p (t ++ [c]) = t ++ [c] := by
  simp [dropEndWhile,stop]

theorem dropEndStop {p : Char → Bool} {c : Char} (stop : p c = false) (front rest : Text) :
    dropEndWhile p (front ++ c::rest) = front ++ c::dropEndWhile p rest := by
  simp only [dropEndWhile,List.reverse_append,List.reverse_cons,List.append_assoc,
    List.dropWhile_append]
  by_cases gone : (rest.reverse.dropWhile p).isEmpty
  · simp_all
  · simp_all

theorem trimSolidHead {c : Char} (solid : isBlank c = false) (t : Text) :
    trim (c::t) = c::trimEnd t := by
  have whole : trimStart (c::t) = c::t := by simp [trimStart,solid]
  have kept : trimEnd (c::t) = c::trimEnd t := dropEndStop solid [] t
  rw [trim,whole,kept]

theorem dropEndNone {p : Char → Bool} {t : Text} (none : ∀ c ∈ t, p c = false) :
    dropEndWhile p t = t := by
  rw [dropEndWhile,dropNone fun c mem => none c (List.mem_reverse.mp mem),List.reverse_reverse]

theorem dropEndInside (p : Char → Bool) (t : Text) :
    ∃ back, t = dropEndWhile p t ++ back ∧ ∀ c ∈ back, p c = true := by
  refine ⟨(t.reverse.takeWhile p).reverse,?_,fun c mem => ?_⟩
  · rw [dropEndWhile,← List.reverse_append,List.takeWhile_append_dropWhile,List.reverse_reverse]
  · exact List.mem_takeWhile_imp (List.mem_reverse.mp mem)

theorem dropEndBehind {p : Char → Bool} {back : Text} (all : ∀ c ∈ back, p c = true) (t : Text) :
    dropEndWhile p (t ++ back) = dropEndWhile p t := by
  unfold dropEndWhile
  rw [List.reverse_append,List.dropWhile_append_of_pos fun c mem => all c (List.mem_reverse.mp mem)]

theorem dropEndBefore {p : Char → Bool} {front : Text} (all : ∀ c ∈ front, p c = true) (t : Text) :
    dropEndWhile p (front ++ t) =
      if dropEndWhile p t = [] then [] else front ++ dropEndWhile p t := by
  have gone : front.reverse.dropWhile p = [] :=
    List.dropWhile_eq_nil_iff.mpr fun c mem => all c (List.mem_reverse.mp mem)
  unfold dropEndWhile
  rw [List.reverse_append,List.dropWhile_append,gone]
  simp only [List.isEmpty_iff,List.reverse_eq_nil_iff]
  split <;> simp

theorem trimInside (t : Text) : ∃ front back, t = front ++ (trim t ++ back) ∧
    (∀ c ∈ front, isBlank c = true) ∧ ∀ c ∈ back, isBlank c = true := by
  obtain ⟨back,cut,blank⟩ := dropEndInside isBlank (trimStart t)
  refine ⟨t.takeWhile isBlank,back,?_,fun _ => List.mem_takeWhile_imp,blank⟩
  rw [trim,trimEnd,← cut]
  exact List.takeWhile_append_dropWhile.symm

def Trimmed (t : Text) : Prop :=
  t.head?.any isBlank = false ∧ t.getLast?.any isBlank = false

theorem trimTrimmed (t : Text) : Trimmed (trim t) := by
  obtain ⟨back,cut,_⟩ := dropEndInside isBlank (trimStart t)
  have first : (trim t ++ back).head?.any isBlank = false := cut ▸ dropHead isBlank t
  refine ⟨?_,?_⟩
  · cases kept : trim t with
    | nil => rfl
    | cons c inner =>
      rw [kept] at first
      exact first
  · have last := dropHead isBlank (trimStart t).reverse
    rwa [← List.getLast?_reverse] at last

end ProjectSlice.Text
