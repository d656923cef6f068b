import ProjectSlice.Json.Value

/-! JSON written as text. The pretty layout puts every member on a line of its own, two spaces
deeper than its container, and a space behind each colon; the compact layout writes no blanks.
Empty containers are written `[]` and as two braces in both. Only quotes, backslashes and
characters below U+0020 are escaped. -/
namespace ProjectSlice.Json

inductive Layout where
  | pretty
  | compact
  deriving DecidableEq, Repr

def hexDigit (n : Nat) : Char := if n < 10 then Char.ofNat (48 + n) else Char.ofNat (87 + n)

def escape (c : Char) : Text :=
  if c = '\x22' then ['\\','\x22']
  else if c = '\\' then ['\\','\\']
  else if c = '\x08' then ['\\','b']
  else if c = '\x0c' then ['\\','f']
  else if c = '\n' then ['\\','n']
  else if c = '\r' then ['\\','r']
  else if c = '\t' then ['\\','t']
  else if c.toNat < 0x20 then
    ['\\','u','0','0',hexDigit (c.toNat / 16),hexDigit (c.toNat % 16)]
  else [c]

def quote (t : Text) : Text := '\x22'::t.flatMap escape ++ ['\x22']

def Layout.lineBreak (layout : Layout) (depth : Nat) : Text :=
  match layout with
  | .pretty => '\n'::List.replicate (2 * depth) ' '
  | .compact => []

def Layout.colon : Layout → Text
  | .pretty => [':',' ']
  | .compact => [':']

mutual

def writeAt (layout : Layout) (depth : Nat) : Json → Text
  | .null => ['n','u','l','l']
  | .bool true => ['t','r','u','e']
  | .bool false => ['f','a','l','s','e']
  | .number digits => digits
  | .string text => quote text
  | .array [] => ['[',']']
  | .array (item::items) =>
    '['::layout.lineBreak (depth + 1) ++ writeAt layout (depth + 1) item ++
      writeItems layout (depth + 1) items ++ layout.lineBreak depth ++ [']']
  | .object [] => ['\x7b','\x7d']
  | .object ((name,value)::fields) =>
    '\x7b'::layout.lineBreak (depth + 1) ++ quote name ++ layout.colon ++
      writeAt layout (depth + 1) value ++ writeFields layout (depth + 1) fields ++
      layout.lineBreak depth ++ ['\x7d']

def writeItems (layout : Layout) (depth : Nat) : List Json → Text
  | [] => []
  | item::items =>
    ','::layout.lineBreak depth ++ writeAt layout depth item ++ writeItems layout depth items

def writeFields (layout : Layout) (depth : Nat) : List (Text × Json) → Text
  | [] => []
  | (name,value)::fields =>
    ','::layout.lineBreak depth ++ quote name ++ layout.colon ++ writeAt layout depth value ++
      writeFields layout depth fields

end

def write (layout : Layout) (value : Json) : Text := writeAt layout 0 value

end ProjectSlice.Json
