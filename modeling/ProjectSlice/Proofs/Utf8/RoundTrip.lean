import ProjectSlice.Proofs.Utf8.Ascii
import ProjectSlice.Proofs.Utf8.Order

/-! UTF-8 read back. The machine takes the bytes of a character one by one and ends between two
characters, with no other character on the way. Main statements: every text is read back from its
encoding, and an ASCII byte of an encoding is a character of the text. -/
namespace ProjectSlice.Utf8

theorem byteOfNat {n : Nat} (byte : n < 256) : n.toUInt8.toNat = n := Nat.mod_eq_of_lt byte

section
variable {bits least greatest digit : Nat} (six : digit < 64) (low : least ≤ 0x80 + digit)
  (high : 0x80 + digit ≤ greatest)
include six low high

theorem stepLast : step (some ⟨bits,0,least,greatest⟩) (0x80 + digit).toUInt8 =
    ([Char.ofNat (bits * 64 + digit)],none) := by
  have read : (0x80 + digit).toUInt8.toNat = 0x80 + digit := byteOfNat (by omega)
  have back : (0x80 + digit) % 64 = digit := by omega
  simp only [step,read,if_pos (And.intro low high),back]

theorem stepFurther (owed : Nat) :
    step (some ⟨bits,owed + 1,least,greatest⟩) (0x80 + digit).toUInt8 =
      ([],some ⟨bits * 64 + digit,owed,0x80,0xBF⟩) := by
  have read : (0x80 + digit).toUInt8.toNat = 0x80 + digit := byteOfNat (by omega)
  have back : (0x80 + digit) % 64 = digit := by omega
  simp only [step,read,if_pos (And.intro low high),back]

end

theorem firstOfTwo {digit : Nat} (least : 2 ≤ digit) (bound : digit < 32) :
    firstByte (0xC0 + digit).toUInt8 = ([],some ⟨digit,0,0x80,0xBF⟩) := by
  have read : (0xC0 + digit).toUInt8.toNat = 0xC0 + digit := byteOfNat (by omega)
  have back : 0xC0 + digit - 0xC0 = digit := by omega
  unfold firstByte
  rw [read]
  dsimp only
  rw [if_neg (by omega),if_neg (by omega),if_pos (by omega),back]

theorem firstOfThree {digit : Nat} (bound : digit < 16) :
    firstByte (0xE0 + digit).toUInt8 =
      ([],some ⟨digit,1,if digit = 0 then 0xA0 else 0x80,if digit = 13 then 0x9F else 0xBF⟩) := by
  have read : (0xE0 + digit).toUInt8.toNat = 0xE0 + digit := byteOfNat (by omega)
  have back : 0xE0 + digit - 0xE0 = digit := by omega
  have none : (0xE0 + digit = 0xE0) = (digit = 0) := by simp
  have surrogates : (0xE0 + digit = 0xED) = (digit = 13) := propext (by omega)
  unfold firstByte
  rw [read]
  dsimp only
  rw [if_neg (by omega),if_neg (by omega),if_neg (by omega),if_pos (by omega),back]
  simp only [none,surrogates]

theorem firstOfFour {digit : Nat} (bound : digit < 5) :
    firstByte (0xF0 + digit).toUInt8 =
      ([],some ⟨digit,2,if digit = 0 then 0x90 else 0x80,if digit = 4 then 0x8F else 0xBF⟩) := by
  have read : (0xF0 + digit).toUInt8.toNat = 0xF0 + digit := byteOfNat (by omega)
  have back : 0xF0 + digit - 0xF0 = digit := by omega
  have none : (0xF0 + digit = 0xF0) = (digit = 0) := by simp
  have last : (0xF0 + digit = 0xF4) = (digit = 4) := propext (by omega)
  unfold firstByte
  rw [read]
  dsimp only
  rw [if_neg (by omega),if_neg (by omega),if_neg (by omega),if_neg (by omega),if_pos (by omega),
    back]
  simp only [none,last]

theorem decodeEncodeChar (c : Char) (bytes : Bytes) :
    decodeFrom none (encodeChar c ++ bytes) = c::decodeFrom none bytes := by
  have bound := codePointBound c
  -- Three bytes could hold a surrogate, which is no character.
  have gap : c.toNat < 0xD800 ∨ 0xDFFF < c.toNat := by
    rcases c.valid with small | large
    · exact Or.inl small
    · exact Or.inr large.1
  rcases encodeCharForms c with ⟨one,form⟩ | ⟨_,two,form⟩ | ⟨least,three,form⟩ | ⟨least,form⟩ <;>
    rw [form]
  · have read : firstByte c.toNat.toUInt8 = ([c],none) := by
      unfold firstByte
      simp only [byteOfNat (show c.toNat < 256 by omega),if_pos one,Char.ofNat_toNat]
    simp only [List.cons_append,List.nil_append,decodeFrom,step,read]
  · have whole : c.toNat / 64 * 64 + c.toNat % 64 = c.toNat := by omega
    simp only [List.cons_append,List.nil_append,decodeFrom]
    rw [show step none _ = _ from firstOfTwo (by omega) (by omega)]
    dsimp only
    rw [stepLast (by omega) (by omega) (by omega),whole,Char.ofNat_toNat]
    rfl
  · have whole : (c.toNat / 4096 * 64 + c.toNat / 64 % 64) * 64 + c.toNat % 64 = c.toNat := by omega
    simp only [List.cons_append,List.nil_append,decodeFrom]
    rw [show step none _ = _ from firstOfThree (by omega)]
    dsimp only
    rw [stepFurther (by omega) (by split <;> omega) (by split <;> omega)]
    dsimp only
    rw [stepLast (by omega) (by omega) (by omega),whole,Char.ofNat_toNat]
    rfl
  · have whole : ((c.toNat / 262144 * 64 + c.toNat / 4096 % 64) * 64 + c.toNat / 64 % 64) * 64 +
        c.toNat % 64 = c.toNat := by omega
    simp only [List.cons_append,List.nil_append,decodeFrom]
    rw [show step none _ = _ from firstOfFour (by omega)]
    dsimp only
    rw [stepFurther (by omega) (by split <;> omega) (by split <;> omega)]
    dsimp only
    rw [stepFurther (by omega) (by omega) (by omega)]
    dsimp only
    rw [stepLast (by omega) (by omega) (by omega),whole,Char.ofNat_toNat]
    rfl

theorem decodeEncode (t : Text) : decodeLossy (encode t) = t := by
  induction t with
  | nil => rfl
  | cons c t ih =>
    rw [encode,List.flatMap_cons,decodeLossy,decodeEncodeChar]
    exact congrArg (c :: ·) ih

theorem largeBytes {c : Char} (large : 0x80 ≤ c.toNat) : ∀ b ∈ encodeChar c, 0x80 ≤ b.toNat := by
  have bound := codePointBound c
  have byte {n : Nat} (least : 0x80 ≤ n) (most : n < 256) : 0x80 ≤ n.toUInt8.toNat := by
    rwa [byteOfNat most]
  rcases encodeCharForms c with ⟨one,_⟩ | ⟨_,two,form⟩ | ⟨_,three,form⟩ | ⟨_,form⟩
  · omega
  all_goals
    rw [form]
    simp only [List.forall_mem_cons,List.not_mem_nil,false_implies,implies_true,and_true]
    repeat' apply And.intro
    all_goals exact byte (by omega) (by omega)

theorem charOfByte {b : UInt8} (ascii : b.toNat < 0x80) {t : Text} (mem : b ∈ encode t) :
    Char.ofNat b.toNat ∈ t := by
  obtain ⟨c,inside,byte⟩ := List.mem_flatMap.mp mem
  have small : c.toNat < 0x80 :=
    Decidable.byContradiction fun large => by have := largeBytes (Nat.le_of_not_lt large) b byte; omega
  rw [encodeAsciiChar small] at byte
  rwa [List.mem_singleton.mp byte,byteOfNat (by omega),Char.ofNat_toNat]

theorem encodeInjective {s t : Text} (same : encode s = encode t) : s = t := by
  rw [← decodeEncode s,same,decodeEncode]

end ProjectSlice.Utf8
