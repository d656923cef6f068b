import ProjectSlice.Proofs.Lines
import ProjectSlice.Proofs.Utf8.Ascii

/-! Bytes cut at an ASCII byte. No character of several bytes goes on with an ASCII byte, so whatever
is unfinished in front of one ends there as it would at the end of the bytes. Main statements: bytes
are read in front of an ASCII byte and behind it independently, and the pieces of what was read are
the pieces of the bytes, read one by one. -/
namespace ProjectSlice.Utf8
open Sequence

/- Whether nothing but a byte outside of ASCII can continue what is unfinished. -/
def Continues (unfinished : Option Unfinished) : Prop := ∀ u, unfinished = some u → 0x80 ≤ u.least

theorem firstContinues (b : UInt8) : Continues (firstByte b).2 := by
  intro u next
  unfold firstByte at next
  dsimp only at next
  repeat' split at next
  all_goals first
  | contradiction
  | cases Option.some.inj next
    simp

theorem stepContinues (unfinished : Option Unfinished) (b : UInt8) :
    Continues (step unfinished b).2 := by
  cases unfinished with
  | none => exact firstContinues b
  | some u =>
    obtain ⟨bits,owed,least,greatest⟩ := u
    rw [step]
    dsimp only
    split
    · cases owed with
      | zero =>
        intro u next
        contradiction
      | succ owed =>
        intro u next
        cases Option.some.inj next
        exact Nat.le_refl _
    · exact firstContinues b

theorem decodeFromCons (unfinished : Option Unfinished) (b : UInt8) (bytes : Bytes) :
    decodeFrom unfinished (b::bytes) =
      (step unfinished b).1 ++ decodeFrom (step unfinished b).2 bytes := rfl

section
variable {b : UInt8} (ascii : b.toNat < 0x80)
include ascii

theorem stepAscii {unfinished : Option Unfinished} (continues : Continues unfinished) :
    step unfinished b = (decodeFrom unfinished [] ++ [Char.ofNat b.toNat],none) := by
  have first : firstByte b = ([Char.ofNat b.toNat],none) := by simp only [firstByte,if_pos ascii]
  cases unfinished with
  | none => exact first
  | some u =>
    have least := continues u rfl
    have outside : ¬(u.least ≤ b.toNat ∧ b.toNat ≤ u.greatest) := by omega
    rw [step]
    dsimp only
    rw [if_neg outside,first]
    rfl

theorem decodeFromCut {unfinished : Option Unfinished} (continues : Continues unfinished)
    (front rest : Bytes) : decodeFrom unfinished (front ++ b::rest) =
      decodeFrom unfinished front ++ Char.ofNat b.toNat::decodeLossy rest := by
  induction front generalizing unfinished with
  | nil =>
    rw [List.nil_append,decodeFromCons,stepAscii ascii continues,List.append_assoc]
    rfl
  | cons a front ih =>
    rw [List.cons_append,decodeFromCons,decodeFromCons,ih (stepContinues unfinished a),
      List.append_assoc]

theorem decodeCut (front rest : Bytes) : decodeLossy (front ++ b::rest) =
    decodeLossy front ++ Char.ofNat b.toNat::decodeLossy rest := by
  have between : Continues none := by
    intro u next
    contradiction
  exact decodeFromCut ascii between front rest

end

theorem decodeNilIff {bytes : Bytes} : decodeLossy bytes = [] ↔ bytes = [] := by
  constructor
  · intro none
    cases bytes with
    | nil => rfl
    | cons b bytes =>
      rw [decodeLossy,decodeFrom,step] at none
      rcases firstByteCases b with ⟨_,read⟩ | read | ⟨u,large,read⟩
      · rw [read] at none
        contradiction
      · rw [read] at none
        contradiction
      · rw [read] at none
        have nothing : decodeFrom (some u) bytes = [] := none
        refine absurd (fun c mem => ?_) (unfinishedLarge large bytes)
        exact absurd (nothing ▸ mem) List.not_mem_nil
  · rintro rfl
    rfl

theorem chunksDecode (bytes : Bytes) :
    chunks '\n' (decodeLossy bytes) = (chunks 10 bytes).map decodeLossy := by
  have feedless {piece : Bytes} (free : 10 ∉ piece) : '\n' ∉ decodeLossy piece :=
    fun mem => free (byteOfDecoded (by decide) mem)
  induction length : bytes.length using Nat.strongRecOn generalizing bytes with
  | _ n ih =>
    by_cases cut : 10 ∈ bytes
    · obtain ⟨piece,rest,rfl,free⟩ := List.eq_append_cons_of_mem cut
      have shorter : rest.length < n := by
        rw [← length,List.length_append,List.length_cons]
        omega
      rw [decodeCut (by decide),chunksAppend free,List.map_cons]
      exact (chunksAppend (feedless free) _).trans (congrArg _ (ih _ shorter rest rfl))
    · rw [chunksOpen cut,chunksOpen (feedless cut)]
      simp only [decodeNilIff]
      split <;> rfl

end ProjectSlice.Utf8
