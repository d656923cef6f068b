import ProjectSlice.Text.Digits

/-! JSON values. A number keeps the characters it is written with, so nothing about it is lost or
rounded; an object keeps its fields in order. Main statement: a natural number is read back from
the digits that write it. -/
namespace ProjectSlice

inductive Json where
  | null
  | bool (b : Bool)
  | number (digits : Text)
  | string (text : Text)
  | array (items : List Json)
  | object (fields : List (Text × Json))

namespace Json

def ofNat (n : Nat) : Json := .number (Text.decimal n)

def ofText? : Option Text → Json
  | none => .null
  | some t => .string t

def texts (ts : List Text) : Json := .array (ts.map .string)

/-- The last value that an object gives a field. -/
def field? (name : Text) : Json → Option Json
  | .object fields => (fields.reverse.find? fun f => f.1 == name).map Prod.snd
  | _ => none

def text? : Json → Option Text
  | .string t => some t
  | _ => none

def bool? : Json → Option Bool
  | .bool b => some b
  | _ => none

def items? : Json → Option (List Json)
  | .array items => some items
  | _ => none

def nat? : Json → Option Nat
  | .number digits => if digits.all Char.isDigit then some (Text.decimalValue digits) else none
  | _ => none

theorem natOfNat (n : Nat) : (ofNat n).nat? = some n := by
  simp only [ofNat,nat?,Text.decimalDigits,if_true,Text.decimalValueDecimal]

end Json
end ProjectSlice
