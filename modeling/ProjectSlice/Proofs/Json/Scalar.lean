import Mathlib.Data.List.TakeDrop
import Mathlib.Data.List.TakeWhile
import ProjectSlice.Json.Parser
import ProjectSlice.Json.Printer

/-! Strings and numbers of JSON read back from their texts. Each is read from the front of a text and
leaves what follows it: a string ends at its quote whatever follows, a number only where nothing
follows that continues it. Main statements: every text is read back from its quoted form, every
natural number from its digits. -/
namespace ProjectSlice.Json
open Text

theorem escapeCases (c : Char) :
    (∃ letter, escape c = ['\\',letter] ∧ letter ≠ 'u' ∧ unescape? letter = some c) ∨
    (c.toNat < 0x20 ∧
      escape c = ['\\','u','0','0',hexDigit (c.toNat / 16),hexDigit (c.toNat % 16)]) ∨
    (c ≠ '\x22' ∧ c ≠ '\\' ∧ ¬c.toNat < 0x20 ∧ escape c = [c]) := by
  -- The characters that have a letter of their own are tested one by one before any other.
  by_cases lettered : c ∈ ['\x22','\\','\x08','\x0c','\n','\r','\t']
  · left
    simp only [List.mem_cons,List.not_mem_nil,or_false] at lettered
    rcases lettered with rfl | rfl | rfl | rfl | rfl | rfl | rfl
    all_goals exact ⟨_,rfl,by decide,rfl⟩
  · right
    simp only [List.mem_cons,List.not_mem_nil,or_false,not_or] at lettered
    obtain ⟨quote,stroke,back,feed,line,carriage,tab⟩ := lettered
    unfold escape
    rw [if_neg quote,if_neg stroke,if_neg back,if_neg feed,if_neg line,if_neg carriage,if_neg tab]
    by_cases control : c.toNat < 0x20
    · exact Or.inl ⟨control,if_pos control⟩
    · exact Or.inr ⟨quote,stroke,control,if_neg control⟩

theorem hexNumberDigits : ∀ n < 0x20,
    hexNumber? ['0','0',hexDigit (n / 16),hexDigit (n % 16)] = some n := by decide

theorem stringRestEscape (c : Char) (t : Text) :
    stringRest (escape c ++ t) = (stringRest t).map fun (text,rest) => (c::text,rest) := by
  rcases escapeCases c with ⟨letter,written,other,meant⟩ | ⟨control,written⟩ |
    ⟨quote,stroke,printed,written⟩
  · rw [written,List.cons_append,List.singleton_append,stringRest]
    · rw [meant]
    · exact fun _ _ _ _ _ same _ => other same
  · -- A control character lies below all surrogates.
    have low : ¬(0xDC00 ≤ c.toNat ∧ c.toNat < 0xE000) := by omega
    have high : ¬(0xD800 ≤ c.toNat ∧ c.toNat < 0xDC00) := by omega
    rw [written]
    simp only [List.cons_append,List.nil_append]
    rw [stringRest,hexNumberDigits c.toNat control]
    simp only [if_neg low,if_neg high,Char.ofNat_toNat]
  · rw [written,List.singleton_append,stringRest,if_neg (not_or.mpr ⟨printed,stroke⟩)]
    · exact quote
    · exact fun _ _ _ _ _ same _ => stroke same
    · exact fun _ _ same _ => stroke same

theorem stringRestQuote (text rest : Text) :
    stringRest (text.flatMap escape ++ '\x22'::rest) = some (text,rest) := by
  induction text with
  | nil => rfl
  | cons c text ih => rw [List.flatMap_cons,List.append_assoc,stringRestEscape,ih]; rfl

def endsValue (c : Char) : Bool := c == ',' || c == ']' || c == '\x7d' || isSpace c

def Ends (rest : Text) : Prop := rest.head?.all endsValue = true

theorem endsNumber {c : Char} (ends : endsValue c = true) :
    c.isDigit = false ∧ c ≠ '.' ∧ ¬(c = 'e' ∨ c = 'E') := by
  simp only [endsValue,isSpace,Bool.or_eq_true,beq_iff_eq] at ends
  rcases ends with ((rfl | rfl) | rfl) | ((rfl | rfl) | rfl) | rfl
  all_goals decide

theorem digitOther {c d : Char} (digit : c.isDigit = true) (other : d.isDigit = false) : c ≠ d := by
  rintro rfl
  exact Bool.noConfusion (digit.symm.trans other)

theorem decimalCons (n : Nat) : ∃ d digits, decimal n = d::digits ∧ d.isDigit = true := by
  obtain ⟨d,digits,shape⟩ := List.exists_cons_of_ne_nil (Nat.toDigits_ne_nil (b := 10) (n := n))
  refine ⟨d,digits,shape,List.all_eq_true.mp (decimalDigits n) d ?_⟩
  rw [decimal,shape]
  exact List.mem_cons_self

/- Only zero itself begins with a zero, so no number that is written has a superfluous one. -/
theorem decimalZero {n : Nat} (zero : (decimal n).head? = some '0') : n = 0 := by
  induction n using Nat.strongRecOn with
  | _ n ih =>
    rw [decimal,Nat.toDigits_eq_if (by decide)] at zero
    split at zero
    · rename_i small
      have digits : ∀ d < 10, Nat.digitChar d = '0' → d = 0 := by decide
      exact digits n small (Option.some.inj zero)
    · rename_i large
      obtain ⟨d,digits,shape,_⟩ := decimalCons (n / 10)
      have first : (decimal (n / 10)).head? = some '0' := by
        rw [decimal] at shape ⊢
        rwa [shape] at zero ⊢
      have := ih (n / 10) (by omega) first
      omega

theorem digitsDecimal (n : Nat) {rest : Text} (ends : Ends rest) :
    digits? (decimal n ++ rest) = some (decimal n,rest) := by
  obtain ⟨d,digits,shape,_⟩ := decimalCons n
  have all : ∀ c ∈ decimal n, c.isDigit = true := List.all_eq_true.mp (decimalDigits n)
  have stop : rest.takeWhile Char.isDigit = [] ∧ rest.dropWhile Char.isDigit = rest := by
    cases rest with
    | nil => exact ⟨rfl,rfl⟩
    | cons c rest => simp [(endsNumber ends).1]
  unfold digits?
  rw [List.span_eq_takeWhile_dropWhile,List.takeWhile_append_of_pos all,
    List.dropWhile_append_of_pos all,stop.1,stop.2,List.append_nil,shape]

theorem numberDecimal (n : Nat) {rest : Text} (ends : Ends rest) :
    number? (decimal n ++ rest) = some (decimal n,rest) := by
  obtain ⟨d,digits,shape,digit⟩ := decimalCons n
  have read := digitsDecimal n ends
  have plain : ¬((decimal n).head? = some '0' ∧ (decimal n).length ≠ 1) := by
    rintro ⟨zero,more⟩
    rw [decimalZero zero] at more
    exact more rfl
  have unsigned : d ≠ '-' := digitOther digit rfl
  unfold number?
  rw [shape] at read plain ⊢
  simp only [List.cons_append] at read ⊢
  split
  · rename_i same
    exact absurd (List.cons.inj same).1 unsigned
  · simp only [read,bind,Option.bind,if_neg plain]
    cases rest with
    | nil => simp
    | cons c rest =>
      obtain ⟨_,point,exponent⟩ := endsNumber ends
      simp [point,exponent]

end ProjectSlice.Json
