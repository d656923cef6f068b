import Mathlib.Data.List.SplitBy
import ProjectSlice.Proofs.Words

/-! A line cut where its words begin and end. The pieces of a line are its words and the gaps between
them, so no two words and no two gaps stand side by side. Main statements: a line that begins with a
word or a gap has this for its first piece, and what each word and each gap keeps when it is put in
front of a line holds of all lines. -/
namespace ProjectSlice.Text

/-- The longest runs of word characters and of other characters, from left to right. -/
def pieces (line : Text) : List Text := line.splitBy fun a b => isWord a == isWord b

def IsGap (t : Text) : Prop := t ≠ [] ∧ ∀ c ∈ t, isWord c = false
instance (t : Text) : Decidable (IsGap t) :=
  decidable_of_iff (t ≠ [] ∧ t.all (!isWord ·) = true) (and_congr_right' (by simp))

theorem wordHead {word : Text} (own : IsWord word) (t : Text) :
    (word ++ t).head?.all isWord = true := by
  obtain ⟨c,word,rfl⟩ := List.exists_cons_of_ne_nil own.1
  exact own.2 c List.mem_cons_self

theorem gapHead {gap : Text} (own : IsGap gap) (t : Text) :
    (gap ++ t).head?.any isWord = false := by
  obtain ⟨c,gap,rfl⟩ := List.exists_cons_of_ne_nil own.1
  exact own.2 c List.mem_cons_self

theorem gapLast {gap : Text} (own : IsGap gap) (front : Text) :
    opensWord (front ++ gap).getLast? = true := by
  rw [List.getLast?_append_of_ne_nil front own.1,List.getLast?_eq_some_getLast own.1]
  simp [opensWord,own.2 _ (List.getLast_mem own.1)]

theorem gapNoWord {t : Text} (gap : IsGap t) (word : IsWord t) : False := by
  obtain ⟨c,inner,rfl⟩ := List.exists_cons_of_ne_nil gap.1
  exact Bool.noConfusion
    ((gap.2 c List.mem_cons_self).symm.trans (word.2 c List.mem_cons_self))

theorem piecesBehind {front t : Text}
    (edge : ∀ a ∈ front.getLast?, ∀ b ∈ t.head?, isWord a ≠ isWord b) :
    pieces (front ++ t) = pieces front ++ pieces t :=
  List.splitBy_append fun a last b first => beq_eq_false_iff_ne.mpr (edge a last b first)

section
variable {kind : Bool} {piece : Text}

theorem pieceAlone (nonempty : piece ≠ []) (alike : ∀ c ∈ piece, isWord c = kind) :
    pieces piece = [piece] := by
  refine List.splitBy_of_isChain nonempty (List.Pairwise.isChain ?_)
  refine List.pairwise_of_forall_mem_list fun a first b second => ?_
  rw [alike a first,alike b second,beq_self_eq_true]

theorem pieceFirst (nonempty : piece ≠ []) (alike : ∀ c ∈ piece, isWord c = kind) {t : Text}
    (stop : ∀ c, t.head? = some c → isWord c = !kind) : pieces (piece ++ t) = piece::pieces t := by
  rw [piecesBehind,pieceAlone nonempty alike,List.singleton_append]
  intro a last b first
  simp [alike a (List.mem_of_getLast? last),stop b first]

end

theorem piecesWord {word t : Text} (own : IsWord word) (stop : t.head?.any isWord = false) :
    pieces (word ++ t) = word::pieces t :=
  pieceFirst own.1 own.2 ((Option.any_eq_false _ _).mp stop)

theorem piecesGap {gap t : Text} (own : IsGap gap) (stop : t.head?.all isWord = true) :
    pieces (gap ++ t) = gap::pieces t :=
  pieceFirst own.1 own.2 ((Option.all_eq_true _ _).mp stop)

/- The first piece of a line reaches as far as its characters are like the first one. -/
theorem inductionPieces {motive : Text → Prop} (nil : motive [])
    (word : ∀ word t, IsWord word → t.head?.any isWord = false → motive t → motive (word ++ t))
    (gap : ∀ gap t, IsGap gap → t.head?.all isWord = true → motive t → motive (gap ++ t))
    (line : Text) : motive line := by
  induction length : line.length using Nat.strong_induction_on generalizing line with
  | _ n ih =>
    cases line with
    | nil => exact nil
    | cons c t =>
      let like : Char → Bool := fun d => isWord d == isWord c
      have whole : c::t = (c::t.takeWhile like) ++ t.dropWhile like := by
        rw [List.cons_append,List.takeWhile_append_dropWhile]
      have shorter : (t.dropWhile like).length < n := by
        have kept := (List.dropWhile_suffix like (l := t)).length_le
        simp only [List.length_cons] at length
        omega
      have rest := ih _ shorter _ rfl
      have alike : ∀ d ∈ c::t.takeWhile like, isWord d = isWord c := by
        refine List.forall_mem_cons.mpr ⟨rfl,fun d mem => ?_⟩
        exact eq_of_beq (List.mem_takeWhile_imp (p := like) mem)
      have stop : ∀ d, (t.dropWhile like).head? = some d → isWord d = !isWord c := by
        intro d first
        have other := List.head?_dropWhile_not like t
        rw [first] at other
        exact Bool.eq_not.mpr (beq_eq_false_iff_ne.mp other)
      rw [whole]
      cases kind : isWord c with
      | true =>
        rw [kind] at alike stop
        exact word _ _ ⟨List.cons_ne_nil _ _,alike⟩ ((Option.any_eq_false _ _).mpr stop) rest
      | false =>
        rw [kind] at alike stop
        exact gap _ _ ⟨List.cons_ne_nil _ _,alike⟩ ((Option.all_eq_true _ _).mpr stop) rest

theorem piecesAtWord {front word t : Text} (opens : opensWord front.getLast? = true)
    (own : IsWord word) (stop : t.head?.any isWord = false) :
    pieces (front ++ (word ++ t)) = pieces front ++ word::pieces t := by
  rw [← piecesWord own stop]
  refine piecesBehind fun a last b first => ?_
  have second := (Option.all_eq_true _ _).mp (wordHead own t) b first
  rw [last] at opens
  simpa [opensWord,second] using opens

/- The first piece of a line is one of its words or one of its gaps, and the line goes on behind it. -/
theorem piecesForm {line first : Text} {others : List Text} (cut : pieces line = first::others) :
    ∃ t, line = first ++ t ∧ others = pieces t ∧
      (IsWord first ∧ t.head?.any isWord = false ∨ IsGap first ∧ t.head?.all isWord = true) := by
  induction line using inductionPieces with
  | nil => contradiction
  | word word t own stop _ =>
    rw [piecesWord own stop] at cut
    obtain ⟨rfl,rfl⟩ := List.cons.inj cut
    exact ⟨t,rfl,rfl,.inl ⟨own,stop⟩⟩
  | gap gap t own stop _ =>
    rw [piecesGap own stop] at cut
    obtain ⟨rfl,rfl⟩ := List.cons.inj cut
    exact ⟨t,rfl,rfl,.inr ⟨own,stop⟩⟩

theorem piecesMarked {mark : Text} (own : IsGap mark) (t : Text) :
    ∃ gap others, pieces (mark ++ t) = gap::others ∧ mark <+: gap := by
  let other : Char → Bool := fun c => !isWord c
  have gap : IsGap (mark ++ t.takeWhile other) := by
    refine ⟨List.append_ne_nil_of_left_ne_nil own.1 _,List.forall_mem_append.mpr ⟨own.2,?_⟩⟩
    intro c mem
    simpa [other] using List.mem_takeWhile_imp (p := other) mem
  have stop : (t.dropWhile other).head?.all isWord = true := by
    rw [Option.all_eq_true]
    intro c first
    have stops := List.head?_dropWhile_not other t
    rw [first] at stops
    simpa [other] using stops
  refine ⟨_,pieces (t.dropWhile other),?_,List.prefix_append mark (t.takeWhile other)⟩
  rw [← piecesGap gap stop,List.append_assoc,List.takeWhile_append_dropWhile]

/- A beginning of a text reaches no further than the first character that it cannot have. -/
theorem prefixBefore {p : Char → Bool} {begun front t : Text} (inside : ∀ c ∈ begun, p c = true)
    (stop : t.head?.any p = false) : begun <+: front ++ t ↔ begun <+: front := by
  refine ⟨fun begins => ?_,fun begins => begins.trans (List.prefix_append _ _)⟩
  rcases List.prefix_or_prefix_of_prefix begins (List.prefix_append front t) with short | ⟨more,rfl⟩
  · exact short
  · have further : more <+: t := (List.prefix_append_right_inj front).mp begins
    cases more with
    | nil => simp
    | cons c more =>
      obtain ⟨behind,rfl⟩ := further
      have own := inside c (by simp)
      exact Bool.noConfusion (stop.symm.trans own)

end ProjectSlice.Text
