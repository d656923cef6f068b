import Mathlib.Data.List.Infix
import ProjectSlice.Proofs.Pieces
import ProjectSlice.Proofs.Search

/-! What can be read at the places of a line. A search passes over the places inside of what it reads,
so it may miss things that can be read there, but it finds nothing else. Where everything that is read
begins with a word, the first places of the words are the only ones that matter. Main statements: a
search finds nothing that cannot be read at some place and begins with the first such thing; it finds
everything where no reading hides another; and what is read at the places of a line is told by the
pieces from each place on. -/
namespace ProjectSlice.Text

variable {α : Type} {read : Recogniser α}

def readings (read : Recogniser α) : Option Char → Text → List α
  | _,[] => []
  | before,c::t => ((read before (c::t)).map Prod.fst).toList ++ readings read (some c) t

/-- A recogniser of things that begin with a word. Behind what is read, a word can begin or none
stands. -/
structure AtWords (read : Recogniser α) : Prop where
  opening : ∀ {a b}, opensWord a = opensWord b → read a = read b
  inside : ∀ {before t}, opensWord before = false → read before t = none
  begins : ∀ {before t}, t.head?.any isWord = false → read before t = none
  ends : ∀ {before t x rest}, read before t = some (x,rest) →
    ∃ taken, t = taken ++ rest ∧ taken ≠ [] ∧
      (opensWord taken.getLast? = true ∨ rest.head?.any isWord = false)

theorem readingsAtOnce {before : Option Char} {t : Text} {x : α} {rest : Text} {c : Char}
    (reads : read before (c::t) = some (x,rest)) :
    readings read before (c::t) = x::readings read (some c) t := by
  simp [readings,reads]

theorem readingsLater {before : Option Char} {t : Text} {c : Char}
    (nothing : read before (c::t) = none) :
    readings read before (c::t) = readings read (some c) t := by
  simp [readings,nothing]

theorem readingsBehind (read : Recogniser α) (taken : Text) (before : Option Char) (rest : Text) :
    (readings read (taken.getLast?.or before) rest).Sublist (readings read before (taken ++ rest)) := by
  induction taken generalizing before with
  | nil => exact List.Sublist.refl _
  | cons c taken ih =>
    rw [lastBehind]
    exact (ih (some c)).trans (List.sublist_append_right _ _)

theorem firstOfReadings (before : Option Char) (t : Text) :
    firstFrom? read before t = (readings read before t).head? := by
  induction t generalizing before with
  | nil => rfl
  | cons c t ih =>
    rw [firstFrom?]
    split
    · rename_i reads
      rw [readingsAtOnce reads,List.head?_cons]
    · rename_i nothing
      rw [readingsLater nothing]
      exact ih (some c)

theorem headOfSearch (read : Recogniser α) {room : Nat} {t : Text} (enough : t.length ≤ room)
    (before : Option Char) :
    (searchFrom read room before t).head? = (readings read before t).head? := by
  induction room generalizing t before with
  | zero =>
    obtain rfl := List.eq_nil_of_length_eq_zero (Nat.le_zero.mp enough)
    rfl
  | succ room ih =>
    cases t with
    | nil => rfl
    | cons c t =>
      rw [searchFrom]
      split
      · rename_i reads
        rw [readingsAtOnce reads,List.head?_cons,List.head?_cons]
      · rename_i nothing
        rw [readingsLater nothing]
        exact ih (Nat.le_of_succ_le_succ enough) (some c)

namespace AtWords

variable (words : AtWords read)
include words

theorem readingsAtEdge {before : Option Char} {t : Text}
    (edge : opensWord before = true ∨ t.head?.any isWord = false) :
    readings read before t = readings read none t := by
  cases t with
  | nil => rfl
  | cons c t =>
    have same : read before (c::t) = read none (c::t) := by
      rcases edge with opens | stop
      · rw [words.opening (a := before) (b := none) opens]
      · rw [words.begins stop,words.begins stop]
    rw [readings,readings,same]

/- Nothing can be read in the middle of a word. -/
theorem readingsInsideWord {word t : Text} (own : ∀ c ∈ word, isWord c = true)
    (stop : t.head?.any isWord = false) {before : Option Char} (inside : opensWord before = false) :
    readings read before (word ++ t) = readings read none t := by
  induction word generalizing before with
  | nil => exact words.readingsAtEdge (.inr stop)
  | cons c word ih =>
    obtain ⟨first,others⟩ := List.forall_mem_cons.mp own
    have next : opensWord (some c) = false := by simp [opensWord,first]
    rw [List.cons_append,readingsLater (words.inside inside)]
    exact ih others next

theorem readingsAtWord {word t : Text} (own : IsWord word) (stop : t.head?.any isWord = false) :
    readings read none (word ++ t) =
      ((read none (word ++ t)).map Prod.fst).toList ++ readings read none t := by
  obtain ⟨nonempty,all⟩ := own
  obtain ⟨c,word,rfl⟩ := List.exists_cons_of_ne_nil nonempty
  obtain ⟨first,others⟩ := List.forall_mem_cons.mp all
  have next : opensWord (some c) = false := by simp [opensWord,first]
  rw [List.cons_append,readings,words.readingsInsideWord others stop next]

theorem readingsPastGap {gap : Text} (own : ∀ c ∈ gap, isWord c = false) (t : Text)
    {before : Option Char} (opens : opensWord before = true) :
    readings read before (gap ++ t) = readings read none t := by
  induction gap generalizing before with
  | nil => exact words.readingsAtEdge (.inl opens)
  | cons c gap ih =>
    obtain ⟨first,others⟩ := List.forall_mem_cons.mp own
    have next : opensWord (some c) = true := by simp [opensWord,first]
    rw [List.cons_append,readingsLater (words.begins (by simpa using first))]
    exact ih others next

/- The search goes on behind what it reads with nothing before it, which is as good as the character
that stands there. -/
theorem searchFromReadings (room : Nat) (before : Option Char) (t : Text) :
    (searchFrom read room before t).Sublist (readings read before t) := by
  induction room generalizing before t with
  | zero => exact List.nil_sublist _
  | succ room ih =>
    cases t with
    | nil => exact List.nil_sublist _
    | cons c t =>
      rw [searchFrom]
      split
      · rename_i x rest reads
        obtain ⟨taken,whole,nonempty,edge⟩ := words.ends reads
        obtain ⟨d,taken,rfl⟩ := List.exists_cons_of_ne_nil nonempty
        obtain ⟨rfl,rfl⟩ := List.cons.inj whole
        have behind := readingsBehind read taken (some c) rest
        rw [← lastBehind c taken none,Option.or_none,words.readingsAtEdge edge] at behind
        rw [readingsAtOnce reads]
        exact ((ih none rest).trans behind).cons_cons x
      · rename_i nothing
        rw [readingsLater nothing]
        exact ih (some c) t

theorem searchOnly {line : Text} {x : α} (only : readings read none line = [x]) :
    search read line = [x] := by
  have among := words.searchFromReadings line.length none line
  have first := headOfSearch read (Nat.le_refl line.length) none
  rw [only] at among first
  rcases List.sublist_singleton.mp among with none | one
  · rw [none] at first
    contradiction
  · exact one

/-- Where no reading hides another one, a search finds whatever can be read at a place of the line. -/
theorem searchAll (apart : ∀ {before t x rest}, read before t = some (x,rest) →
    readings read before t = x::readings read none rest) (line : Text) :
    search read line = readings read none line := by
  have all (room : Nat) (before : Option Char) (t : Text) (enough : t.length ≤ room) :
      searchFrom read room before t = readings read before t := by
    induction room generalizing before t with
    | zero =>
      obtain rfl := List.eq_nil_of_length_eq_zero (Nat.le_zero.mp enough)
      rfl
    | succ room ih =>
      cases t with
      | nil => rfl
      | cons c t =>
        have less : t.length ≤ room := Nat.le_of_succ_le_succ enough
        rw [searchFrom]
        split
        · rename_i x rest reads
          obtain ⟨taken,whole,nonempty,_⟩ := words.ends reads
          have shorter : rest.length ≤ room := by
            have lengths := congrArg List.length whole
            have positive := List.length_pos_of_ne_nil nonempty
            simp only [List.length_append,List.length_cons] at lengths
            omega
          rw [apart reads,ih none rest shorter]
        · rename_i nothing
          rw [readingsLater nothing]
          exact ih (some c) t less
  exact all line.length none line (Nat.le_refl _)

theorem readingsPieces {shows : List Text → Option α}
    (same : ∀ t, (read none t).map Prod.fst = shows (pieces t)) (line : Text) :
    readings read none line = (pieces line).tails.filterMap shows := by
  induction line using inductionPieces with
  | nil =>
    have nothing : shows [] = none := (same []).symm.trans (by rw [words.begins rfl]; rfl)
    simp [readings,pieces,nothing]
  | word word t own stop ih =>
    rw [words.readingsAtWord own stop,same,piecesWord own stop,List.tails_cons,List.filterMap_cons,ih]
    cases shows (word::pieces t) <;> rfl
  | gap gap t own stop ih =>
    have nothing : shows (gap::pieces t) = none := by
      rw [← piecesGap own stop,← same,words.begins (gapHead own t),Option.map_none]
    rw [words.readingsPastGap own.2 t rfl,piecesGap own stop,List.tails_cons,List.filterMap_cons,
      nothing,ih]

end AtWords

structure Keyed (word : Text) (read : Recogniser α) : Prop extends AtWords read where
  own : IsWord word
  key : ∀ {before t found}, read before t = some found →
    ∃ rest, t = word ++ rest ∧ rest.head?.any isWord = false

namespace Keyed

variable {word : Text} (keyed : Keyed word read)
include keyed

theorem readsNoOtherWord {other t : Text} (own : IsWord other) (stop : t.head?.any isWord = false)
    (different : word ≠ other) (before : Option Char) : read before (other ++ t) = none := by
  cases reads : read before (other ++ t) with
  | none => rfl
  | some found =>
    obtain ⟨rest,same,apart⟩ := keyed.key reads
    have cut := spanWordAppend own.2 stop
    rw [same,spanWordAppend keyed.own.2 apart] at cut
    exact absurd (congrArg Prod.fst cut) different

/- A text without the word is passed over, unless its last word goes on behind it. -/
theorem readingsPastAbsent {front t : Text} (absent : word ∉ pieces front)
    (edge : opensWord front.getLast? = true ∨ t.head?.any isWord = false) :
    readings read none (front ++ t) = readings read none t := by
  have later {piece front : Text}
      (edge : opensWord (piece ++ front).getLast? = true ∨ t.head?.any isWord = false) :
      opensWord front.getLast? = true ∨ t.head?.any isWord = false := by
    cases last : front.getLast? with
    | none => exact .inl rfl
    | some c => simpa [last] using edge
  induction front using inductionPieces with
  | nil => rfl
  | word other front own stop ih =>
    rw [piecesWord own stop,List.mem_cons,not_or] at absent
    have behind : (front ++ t).head?.any isWord = false := by
      cases front with
      | nil =>
        refine edge.resolve_left fun opens => ?_
        have last := List.getLast?_eq_some_getLast own.1
        rw [List.append_nil,last] at opens
        simp [opensWord,own.2 _ (List.getLast_mem own.1)] at opens
      | cons c front => exact stop
    rw [List.append_assoc,keyed.readingsAtWord own behind,keyed.readsNoOtherWord own behind absent.1]
    exact ih absent.2 (later edge)
  | gap gap front own stop ih =>
    rw [piecesGap own stop,List.mem_cons,not_or] at absent
    rw [List.append_assoc,keyed.readingsPastGap own.2 _ rfl]
    exact ih absent.2 (later edge)

end Keyed

end ProjectSlice.Text
