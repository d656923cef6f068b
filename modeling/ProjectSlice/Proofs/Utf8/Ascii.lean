import ProjectSlice.Text.Utf8

/-! ASCII texts in bytes. Every sequence of several bytes reads as characters outside of ASCII, and
so does whatever is no character; so bytes that read as an ASCII text are the encoding of it. Main
statements: no other bytes than its encoding read as an ASCII text, and an ASCII character in any
text that was read stands among the bytes. -/
namespace ProjectSlice.Utf8

def IsAscii (t : Text) : Prop := ∀ c ∈ t, c.toNat < 0x80

/- Whatever bytes end an unfinished character, it has a code point outside of ASCII. -/
def EndsLarge : (owed bits least greatest : Nat) → Prop
  | 0,bits,least,greatest => ∀ n, least ≤ n → n ≤ greatest →
    0x80 ≤ bits * 64 + n % 64 ∧ (bits * 64 + n % 64).isValidChar
  | owed + 1,bits,least,greatest => ∀ n, least ≤ n → n ≤ greatest →
    EndsLarge owed (bits * 64 + n % 64) 0x80 0xBF

def Unfinished.IsLarge (u : Unfinished) : Prop := EndsLarge u.owed u.bits u.least u.greatest

theorem replacementLarge : ¬replacement.toNat < 0x80 := by decide

theorem toNatOfValid {n : Nat} (valid : n.isValidChar) : (Char.ofNat n).toNat = n := by
  unfold Char.ofNat
  rw [dif_pos valid]
  rfl

theorem firstByteCases (b : UInt8) :
    b.toNat < 0x80 ∧ firstByte b = ([Char.ofNat b.toNat],none) ∨
    firstByte b = ([replacement],none) ∨
    ∃ u : Unfinished, u.IsLarge ∧ firstByte b = ([],some u) := by
  have bound : b.toNat < 256 := b.toNat_lt
  by_cases one : b.toNat < 0x80
  · exact Or.inl ⟨one,by simp only [firstByte,if_pos one]⟩
  · by_cases none : b.toNat < 0xC2
    · exact Or.inr (Or.inl (by simp only [firstByte,if_neg one,if_pos none]))
    · by_cases two : b.toNat < 0xE0
      · have read : firstByte b = ([],some ⟨b.toNat - 0xC0,0,0x80,0xBF⟩) := by
          simp only [firstByte,if_neg one,if_neg none,if_pos two]
        refine Or.inr (Or.inr ⟨_,?_,read⟩)
        intro n least greatest
        dsimp only at least greatest ⊢
        exact ⟨by omega,Or.inl (by omega)⟩
      · by_cases three : b.toNat < 0xF0
        · have read : firstByte b = ([],some ⟨b.toNat - 0xE0,1,
              if b.toNat = 0xE0 then 0xA0 else 0x80,if b.toNat = 0xED then 0x9F else 0xBF⟩) := by
            simp only [firstByte,if_neg one,if_neg none,if_neg two,if_pos three]
          refine Or.inr (Or.inr ⟨_,?_,read⟩)
          intro n least greatest m least' greatest'
          dsimp only at least greatest ⊢
          unfold Nat.isValidChar
          split at least <;> split at greatest <;> omega
        · by_cases four : b.toNat < 0xF5
          · have read : firstByte b = ([],some ⟨b.toNat - 0xF0,2,
                if b.toNat = 0xF0 then 0x90 else 0x80,if b.toNat = 0xF4 then 0x8F else 0xBF⟩) := by
              simp only [firstByte,if_neg one,if_neg none,if_neg two,if_neg three,if_pos four]
            refine Or.inr (Or.inr ⟨_,?_,read⟩)
            intro n least greatest m least' greatest' k least'' greatest''
            dsimp only at least greatest ⊢
            unfold Nat.isValidChar
            split at least <;> split at greatest <;> omega
          · exact Or.inr (Or.inl (by
              simp only [firstByte,if_neg one,if_neg none,if_neg two,if_neg three,if_neg four]))

theorem unfinishedStep {u : Unfinished} (large : u.IsLarge) (b : UInt8) :
    (∃ c, ¬c.toNat < 0x80 ∧ step (some u) b = ([c],none)) ∨
    (∃ next : Unfinished, next.IsLarge ∧ step (some u) b = ([],some next)) ∨
    step (some u) b = (replacement::(firstByte b).1,(firstByte b).2) := by
  obtain ⟨bits,owed,least,greatest⟩ := u
  rw [step]
  dsimp only
  split
  · rename_i within
    cases owed with
    | zero =>
      obtain ⟨large,valid⟩ := large b.toNat within.1 within.2
      refine Or.inl ⟨_,?_,rfl⟩
      rw [toNatOfValid valid]
      omega
    | succ owed =>
      have further : (Unfinished.mk (bits * 64 + b.toNat % 64) owed 0x80 0xBF).IsLarge :=
        large b.toNat within.1 within.2
      exact Or.inr (Or.inl ⟨_,further,rfl⟩)
  · exact Or.inr (Or.inr rfl)

theorem unfinishedLarge {u : Unfinished} (large : u.IsLarge) (bytes : Bytes) :
    ¬IsAscii (decodeFrom (some u) bytes) := by
  induction bytes generalizing u with
  | nil => exact fun ascii => replacementLarge (ascii replacement (by simp [decodeFrom]))
  | cons b bytes ih =>
    intro ascii
    rw [decodeFrom] at ascii
    rcases unfinishedStep large b with ⟨c,outside,read⟩ | ⟨next,further,read⟩ | read
    · rw [read] at ascii
      exact outside (ascii c List.mem_cons_self)
    · rw [read] at ascii
      exact ih further ascii
    · rw [read] at ascii
      exact replacementLarge (ascii replacement List.mem_cons_self)

theorem byteOfFirst {b : UInt8} {c : Char} (mem : c ∈ (firstByte b).1) (ascii : c.toNat < 0x80) :
    c.toNat.toUInt8 = b := by
  rcases firstByteCases b with ⟨small,read⟩ | read | ⟨u,_,read⟩
  · rw [read] at mem
    rw [List.mem_singleton.mp mem,toNatOfValid (Or.inl (by omega))]
    simp
  · rw [read] at mem
    rw [List.mem_singleton.mp mem] at ascii
    exact absurd ascii replacementLarge
  · rw [read] at mem
    contradiction

/- Whatever is unfinished, the byte that an ASCII character ends with is that character. -/
theorem byteOfStep {unfinished : Option Unfinished}
    (large : ∀ u, unfinished = some u → u.IsLarge) (b : UInt8) :
    (∀ c ∈ (step unfinished b).1, c.toNat < 0x80 → c.toNat.toUInt8 = b) ∧
    ∀ u, (step unfinished b).2 = some u → u.IsLarge := by
  have first : ∀ u, (firstByte b).2 = some u → u.IsLarge := by
    intro u next
    rcases firstByteCases b with ⟨_,read⟩ | read | ⟨v,large,read⟩
    · rw [read] at next
      contradiction
    · rw [read] at next
      contradiction
    · rw [read] at next
      exact Option.some.inj next ▸ large
  cases unfinished with
  | none => exact ⟨fun _ => byteOfFirst,first⟩
  | some u =>
    rcases unfinishedStep (large u rfl) b with ⟨c,outside,read⟩ | ⟨next,further,read⟩ | read
    · rw [read]
      refine ⟨?_,nofun⟩
      intro c mem ascii
      exact absurd (List.mem_singleton.mp mem ▸ ascii) outside
    · rw [read]
      refine ⟨nofun,?_⟩
      intro _ same
      exact Option.some.inj same ▸ further
    · rw [read]
      refine ⟨?_,first⟩
      intro c mem ascii
      rcases List.mem_cons.mp mem with rfl | mem
      · exact absurd ascii replacementLarge
      · exact byteOfFirst mem ascii

theorem byteOfDecodedFrom {c : Char} {unfinished : Option Unfinished} (ascii : c.toNat < 0x80)
    (large : ∀ u, unfinished = some u → u.IsLarge) {bytes : Bytes}
    (mem : c ∈ decodeFrom unfinished bytes) : c.toNat.toUInt8 ∈ bytes := by
  induction bytes generalizing unfinished with
  | nil =>
    rw [decodeFrom] at mem
    split at mem
    · rw [List.mem_singleton.mp mem] at ascii
      exact absurd ascii replacementLarge
    · contradiction
  | cons b bytes ih =>
    obtain ⟨byte,next⟩ := byteOfStep large b
    rcases List.mem_append.mp mem with read | later
    · exact byte c read ascii ▸ List.mem_cons_self
    · exact List.mem_cons_of_mem _ (ih next later)

theorem byteOfDecoded {c : Char} {bytes : Bytes} (ascii : c.toNat < 0x80)
    (mem : c ∈ decodeLossy bytes) : c.toNat.toUInt8 ∈ bytes := by
  have large : ∀ u : Unfinished, none = some u → u.IsLarge := nofun
  exact byteOfDecodedFrom ascii large mem

theorem encodeAsciiChar {c : Char} (ascii : c.toNat < 0x80) : encodeChar c = [c.toNat.toUInt8] := by
  simp only [encodeChar,if_pos ascii]

theorem encodeOfAscii {bytes : Bytes} (ascii : IsAscii (decodeLossy bytes)) :
    encode (decodeLossy bytes) = bytes := by
  induction bytes with
  | nil => rfl
  | cons b bytes ih =>
    rw [decodeLossy,decodeFrom,step] at ascii ⊢
    rcases firstByteCases b with ⟨small,read⟩ | read | ⟨u,large,read⟩
    · rw [read] at ascii ⊢
      obtain ⟨_,rest⟩ := List.forall_mem_cons.mp ascii
      have valid : b.toNat.isValidChar := Or.inl (by omega)
      have back := toNatOfValid valid
      have byte : encodeChar (Char.ofNat b.toNat) = [b] := by
        rw [encodeAsciiChar (by omega),back]
        simp
      show encode (Char.ofNat b.toNat::decodeLossy bytes) = b::bytes
      rw [encode,List.flatMap_cons,byte]
      exact congrArg (b :: ·) (ih rest)
    · rw [read] at ascii
      exact absurd (ascii replacement List.mem_cons_self) replacementLarge
    · rw [read] at ascii
      exact absurd ascii (unfinishedLarge large bytes)

end ProjectSlice.Utf8
