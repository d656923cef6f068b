import ProjectSlice.Text.Blank

/-! TOML values. A table knows how it was written, because that decides what may still be added to
it; so does an array, which a document may extend table by table. Numbers with a fraction and
dates keep the characters they are written with. -/
namespace ProjectSlice.Toml

inductive TableForm where
  | header
  /-- Implied by the header of a table inside it. -/
  | implied
  | dotted
  | inline
  deriving DecidableEq, Repr

inductive ArrayForm where
  | inline
  /-- Built up by headers in double brackets. -/
  | headers
  deriving DecidableEq, Repr

inductive Value where
  | string (text : Text)
  | integer (n : Int)
  | float (written : Text)
  | boolean (b : Bool)
  | moment (written : Text)
  | array (form : ArrayForm) (items : List Value)
  | table (form : TableForm) (fields : List (Text × Value))

/-- The fields of a table, each name once. -/
abbrev Fields := List (Text × Value)

namespace Fields

def get? (fields : Fields) (key : Text) : Option Value :=
  (fields.find? fun f => f.1 == key).map Prod.snd

def put (fields : Fields) (key : Text) (value : Value) : Fields :=
  if (fields.get? key).isSome then fields.map fun f => if f.1 = key then (key,value) else f
  else (key,value)::fields

def erase (fields : Fields) (key : Text) : Fields := fields.filter fun f => f.1 != key

end Fields
end ProjectSlice.Toml
