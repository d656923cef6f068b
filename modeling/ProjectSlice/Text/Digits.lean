import ProjectSlice.Text.Blank

/-! Numbers written with digits. Main statement: a natural number is read back from the decimal
digits that write it. -/
namespace ProjectSlice.Text

def decimal (n : Nat) : Text := Nat.toDigits 10 n

def decimalValue (digits : Text) : Nat :=
  digits.foldl (fun n c => n * 10 + (c.toNat - '0'.toNat)) 0

def hexValue? (c : Char) : Option Nat :=
  if c.isDigit then some (c.toNat - 48)
  else if 'a' ≤ c ∧ c ≤ 'f' then some (c.toNat - 87)
  else if 'A' ≤ c ∧ c ≤ 'F' then some (c.toNat - 55)
  else none

def hexNumber? (digits : Text) : Option Nat :=
  digits.foldlM (fun n c => (hexValue? c).map (n * 16 + ·)) 0

theorem digitValue : ∀ d < 10, (Nat.digitChar d).toNat - '0'.toNat = d := by decide

theorem decimalDigits (n : Nat) : (decimal n).all Char.isDigit = true :=
  List.all_eq_true.mpr fun _ mem => Nat.isDigit_of_mem_toDigits (by decide) (by decide) mem

theorem decimalValueDecimal (n : Nat) : decimalValue (decimal n) = n := by
  induction n using Nat.strongRecOn with
  | _ n ih =>
    rw [decimal,Nat.toDigits_eq_if (by decide)]
    split
    · rename_i small
      simpa [decimalValue] using digitValue n small
    · have earlier := ih (n / 10) (by omega)
      have last := digitValue (n % 10) (by omega)
      simp only [decimalValue,decimal] at earlier
      simp only [decimalValue,List.foldl_append,List.foldl_cons,List.foldl_nil,earlier,last]
      omega

end ProjectSlice.Text
