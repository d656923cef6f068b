import ProjectSlice.Text.Utf8

/-! The order of texts in bytes. A character with a larger code point has the larger encoding,
whatever follows the two, so texts in ascending order have encodings in ascending byte order. -/
namespace ProjectSlice.Utf8

theorem codePointBound (c : Char) : c.toNat < 0x110000 := by
  rcases c.valid with small | large
  · exact Nat.lt_trans small (by decide)
  · exact large.2

theorem encodeCharForms (c : Char) :
    c.toNat < 0x80 ∧ encodeChar c = [c.toNat.toUInt8] ∨
    0x80 ≤ c.toNat ∧ c.toNat < 0x800 ∧
      encodeChar c = [(0xC0 + c.toNat / 64).toUInt8,(0x80 + c.toNat % 64).toUInt8] ∨
    0x800 ≤ c.toNat ∧ c.toNat < 0x10000 ∧
      encodeChar c = [(0xE0 + c.toNat / 4096).toUInt8,(0x80 + c.toNat / 64 % 64).toUInt8,
        (0x80 + c.toNat % 64).toUInt8] ∨
    0x10000 ≤ c.toNat ∧
      encodeChar c = [(0xF0 + c.toNat / 262144).toUInt8,(0x80 + c.toNat / 4096 % 64).toUInt8,
        (0x80 + c.toNat / 64 % 64).toUInt8,(0x80 + c.toNat % 64).toUInt8] := by
  by_cases one : c.toNat < 0x80
  · exact Or.inl ⟨one,by simp only [encodeChar,if_pos one]⟩
  · by_cases two : c.toNat < 0x800
    · exact Or.inr (Or.inl ⟨by omega,two,by simp only [encodeChar,if_neg one,if_pos two]⟩)
    · by_cases three : c.toNat < 0x10000
      · exact Or.inr (Or.inr (Or.inl
          ⟨by omega,three,by simp only [encodeChar,if_neg one,if_neg two,if_pos three]⟩))
      · exact Or.inr (Or.inr (Or.inr
          ⟨by omega,by simp only [encodeChar,if_neg one,if_neg two,if_neg three]⟩))

theorem consBelow {m n : Nat} {s t : Bytes} (bytes : m < 256 ∧ n < 256) (least : m ≤ n)
    (further : m = n → s < t) : m.toUInt8::s < n.toUInt8::t := by
  rw [List.cons_lt_cons_iff]
  rcases Nat.lt_or_eq_of_le least with less | same
  · left
    rw [UInt8.lt_iff_toNat_lt]
    show m % 256 < n % 256
    omega
  · exact Or.inr ⟨congrArg Nat.toUInt8 same,further same⟩

theorem encodeCharBelow {c d : Char} (below : c < d) (s t : Bytes) :
    encodeChar c ++ s < encodeChar d ++ t := by
  have less : c.toNat < d.toNat := below
  have last := codePointBound d
  rcases encodeCharForms c with ⟨_,form⟩ | ⟨_,_,form⟩ | ⟨_,_,form⟩ | ⟨_,form⟩ <;>
    rcases encodeCharForms d with ⟨_,form'⟩ | ⟨_,_,form'⟩ | ⟨_,_,form'⟩ | ⟨_,form'⟩ <;>
    rw [form,form']
  -- Where the digits agree so far, the next ones decide; where all agree, `less` is contradicted.
  all_goals
    repeat first
    | omega
    | refine consBelow (by omega) (by omega) fun same => ?_

theorem encodeBelow {s t : Text} (below : s < t) : encode s < encode t := by
  induction s generalizing t with
  | nil =>
    cases t with
    | nil => exact absurd below (List.lt_irrefl _)
    | cons d t =>
      rcases encodeCharForms d with ⟨_,form⟩ | ⟨_,_,form⟩ | ⟨_,_,form⟩ | ⟨_,form⟩ <;>
        simp [encode,form]
  | cons c s ih =>
    cases t with
    | nil => exact absurd below (List.not_lt_nil _)
    | cons d t =>
      rcases List.cons_lt_cons_iff.mp below with less | ⟨rfl,rest⟩
      · exact encodeCharBelow less _ _
      · exact List.append_left_lt (ih rest)

end ProjectSlice.Utf8
