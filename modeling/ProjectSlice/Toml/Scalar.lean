import ProjectSlice.Sequence
import ProjectSlice.Text.Digits
import ProjectSlice.Toml.Value

/-! The scalar values of TOML: strings in four spellings, numbers, truth values, dates and times.
A reader takes what it reads from the text in front of it and fails without a trace. -/
namespace ProjectSlice.Toml
open Sequence

abbrev Reader := StateT Text Option

namespace Reader

def char (p : Char → Bool) : Reader Char := fun
  | [] => none
  | c::t => if p c then some (c,t) else none

def exactly (s : Text) : Reader Unit := fun t => (after? s t).map fun rest => ((),rest)

def many (p : Char → Bool) : Reader Text := fun t => some (t.span p)

def run (p : Char → Bool) : Reader Text := do
  let c ← char p
  let rest ← many p
  pure (c::rest)

def require (b : Bool) : Reader Unit := if b then pure () else failure

def exactCount (p : Char → Bool) : Nat → Reader Text
  | 0 => pure []
  | n + 1 => do
    let c ← char p
    let rest ← exactCount p n
    pure (c::rest)

def isSpace (c : Char) : Bool := c == ' ' || c == '\t'

def spaces : Reader Unit := do let _ ← many isSpace

def lineFeed : Reader Unit := exactly ['\n'] <|> exactly ['\r','\n']

def isPlain (c : Char) : Bool := c == '\t' || (0x20 ≤ c.toNat && c.toNat != 0x7F)

def comment : Reader Unit := do
  let _ ← char (· == '#')
  let _ ← many isPlain

end Reader

open Reader

def unescape? (c : Char) : Option Char :=
  if c = '\x22' ∨ c = '\\' then some c
  else if c = 'b' then some '\x08'
  else if c = 't' then some '\t'
  else if c = 'n' then some '\n'
  else if c = 'f' then some '\x0c'
  else if c = 'r' then some '\r'
  else none

def codePoint? (digits : Text) : Option Char := do
  let n ← Text.hexNumber? digits
  if n.isValidChar then some (Char.ofNat n) else none

def basicRest : Text → Option (Text × Text)
  | [] => none
  | '\x22'::t => some ([],t)
  | '\\' :: 'u' :: a :: b :: c :: d :: t => do
    let x ← codePoint? [a,b,c,d]
    let (text,rest) ← basicRest t
    some (x::text,rest)
  | '\\' :: 'U' :: a :: b :: c :: d :: e :: f :: g :: h :: t => do
    let x ← codePoint? [a,b,c,d,e,f,g,h]
    let (text,rest) ← basicRest t
    some (x::text,rest)
  | '\\'::c::t => do
    let x ← unescape? c
    let (text,rest) ← basicRest t
    some (x::text,rest)
  | c::t =>
    if isPlain c && c != '\\' then (basicRest t).map fun (text,rest) => (c::text,rest) else none

def beginsLine (t : Text) : Bool :=
  match t.dropWhile isSpace with
  | '\n' :: _ | '\r' :: '\n' :: _ => true
  | _ => false

/-- The end of a string over several lines, at three of its marks: up to two more belong to the
string. -/
def closing (mark : Char) (t : Text) : Text × Text :=
  match t with
  | a::b::rest =>
    if a = mark ∧ b = mark then ([mark,mark],rest)
    else if a = mark then ([mark],b::rest)
    else ([],t)
  | [a] => if a = mark then ([mark],[]) else ([],t)
  | [] => ([],[])

/-- The rest of a string over several lines. While `skipping`, behind a backslash at the end of a
line, spaces and line ends are passed over. -/
def longBasicRest : (skipping : Bool) → Text → Option (Text × Text)
  | _,[] => none
  | true,' ' :: t | true,'\t' :: t | true,'\n' :: t | true,'\r' :: '\n' :: t => longBasicRest true t
  | _,'\x22' :: '\x22' :: '\x22' :: t => some (closing '\x22' t)
  | _,'\\' :: 'u' :: a :: b :: c :: d :: t => do
    let x ← codePoint? [a,b,c,d]
    let (text,rest) ← longBasicRest false t
    some (x::text,rest)
  | _,'\\' :: 'U' :: a :: b :: c :: d :: e :: f :: g :: h :: t => do
    let x ← codePoint? [a,b,c,d,e,f,g,h]
    let (text,rest) ← longBasicRest false t
    some (x::text,rest)
  | _,'\\'::t =>
    if beginsLine t then longBasicRest true t
    else
      match t with
      | [] => none
      | c::t => do
        let x ← unescape? c
        let (text,rest) ← longBasicRest false t
        some (x::text,rest)
  | _,'\r' :: '\n' :: t => (longBasicRest false t).map fun (text,rest) => ('\n' :: text,rest)
  | _,c::t =>
    if c == '\n' || (isPlain c) then
      (longBasicRest false t).map fun (text,rest) => (c::text,rest)
    else none

def longLiteralRest : Text → Option (Text × Text)
  | [] => none
  | '\x27' :: '\x27' :: '\x27' :: t => some (closing '\x27' t)
  | '\r' :: '\n' :: t => (longLiteralRest t).map fun (text,rest) => ('\n' :: text,rest)
  | c::t =>
    if c == '\n' || isPlain c then
      (longLiteralRest t).map fun (text,rest) => (c::text,rest)
    else none

def shortString : Reader Text :=
  (do exactly ['\x22']; basicRest) <|> do
    exactly ['\x27']
    let text ← many fun c => isPlain c && c != '\x27'
    exactly ['\x27']
    pure text

/-- A string in any of its four spellings; a line end right behind three marks is no part of
it. -/
def string : Reader Text := do
  match ← optional (exactly ['\x22','\x22','\x22']) with
  | some _ =>
    let _ ← optional lineFeed
    longBasicRest false
  | none =>
    match ← optional (exactly ['\x27','\x27','\x27']) with
    | some _ =>
      let _ ← optional lineFeed
      longLiteralRest
    | none => shortString

def underscored (p : Char → Bool) : Reader Text := do
  let c ← char p
  let rest ← many fun c => p c || c == '_'
  let digits := rest.filter (· != '_')
  let gaps := rest.splitOn '_'
  require (gaps.tail.all (· != []))
  pure (c::digits)

def sign : Reader Text := do
  let found ← optional (char fun c => c == '+' || c == '-')
  pure found.toList

def decimal : Reader (Text × Text) := do
  let s ← sign
  let digits ← (do exactly ['0']; pure ['0']) <|> underscored Char.isDigit
  pure (s,digits)

def checked (n : Int) : Reader Value := do
  let bound : Int := Nat.pow 2 63
  require (-bound ≤ n && n < bound)
  pure (.integer n)

def inBase (base : Nat) (mark : Char) (p : Char → Bool) : Reader Value := do
  exactly ['0',mark]
  let digits ← underscored p
  let n := digits.foldl (fun n c => n * base + (Text.hexValue? c).getD 0) 0
  checked n

def integer : Reader Value :=
  inBase 16 'x' (fun c => (Text.hexValue? c).isSome) <|>
  inBase 8 'o' (fun c => '0' ≤ c && c ≤ '7') <|>
  inBase 2 'b' (fun c => c == '0' || c == '1') <|> do
    let (s,digits) ← decimal
    let n : Int := Text.decimalValue digits
    checked (if s = ['-'] then -n else n)

/-- Whether the nearest double to a decimal number is infinite: `digits` without their first
`zeros`, times a power of ten, reach the middle between the largest double and the next power of
two. -/
def overflows (digits : Text) (exponent : Int) : Bool :=
  let significant := digits.dropWhile (· == '0')
  let magnitude : Int := significant.length + exponent
  if significant = [] ∨ magnitude < 300 then false
  else if 320 < magnitude then true
  else
    let n := Text.decimalValue significant
    let limit := Nat.pow 2 1024 - Nat.pow 2 970
    if 0 ≤ exponent then limit ≤ n * Nat.pow 10 exponent.toNat
    else limit * Nat.pow 10 (-exponent).toNat ≤ n

def exponentPart : Reader (Text × Text) := do
  let _ ← char fun c => c == 'e' || c == 'E'
  let s ← sign
  let digits ← underscored Char.isDigit
  pure (s,digits)

def float : Reader Value := do
  let (s,whole) ← decimal
  let fraction ← optional do exactly ['.']; underscored Char.isDigit
  let power ← optional exponentPart
  require (fraction.isSome || power.isSome)
  let digits := whole ++ fraction.getD []
  let shift : Int := match power with
    | none => 0
    | some (s,e) => if s = ['-'] then -(Text.decimalValue e : Int) else Text.decimalValue e
  require (s == ['-'] || !overflows digits (shift - (fraction.getD []).length))
  pure (.float (s ++ whole ++ '.'::fraction.getD ['0'] ++
    match power with
    | none => []
    | some (s,e) => 'e'::s ++ e))

def specialFloat : Reader Value := do
  let s ← sign
  (do exactly "inf".toList; pure (.float (s ++ "inf".toList))) <|> do
    exactly "nan".toList
    pure (.float (s ++ "nan".toList))

def field (n least greatest : Nat) : Reader Nat := do
  let value := Text.decimalValue (← exactCount Char.isDigit n)
  require (least ≤ value && value ≤ greatest)
  pure value

def daysInMonth (year month : Nat) : Nat :=
  if month = 2 then if year % 4 = 0 ∧ (year % 100 ≠ 0 ∨ year % 400 = 0) then 29 else 28
  else if month = 4 ∨ month = 6 ∨ month = 9 ∨ month = 11 then 30
  else 31

def date : Reader Unit := do
  let year ← field 4 0 9999
  exactly ['-']
  let month ← field 2 1 12
  exactly ['-']
  let _ ← field 2 1 (daysInMonth year month)

def time : Reader Unit := do
  let _ ← field 2 0 23
  exactly [':']
  let _ ← field 2 0 59
  exactly [':']
  let _ ← field 2 0 60
  let _ ← optional do exactly ['.']; run Char.isDigit

def offset : Reader Unit :=
  (do let _ ← char fun c => c == 'Z' || c == 'z') <|> do
    let _ ← char fun c => c == '+' || c == '-'
    let _ ← field 2 0 23
    exactly [':']
    let _ ← field 2 0 59

def moment : Reader Value := do
  let before ← get
  (do
    date
    let _ ← optional do
      let _ ← char fun c => c == 'T' || c == 't' || c == ' '
      time
      optional offset) <|> time
  pure (.moment (before.take (before.length - (← get).length)))

def boolean : Reader Value :=
  (do exactly "true".toList; pure (.boolean true)) <|> do
    exactly "false".toList
    pure (.boolean false)

def scalar : Reader Value :=
  (Value.string <$> string) <|> moment <|> float <|> specialFloat <|> integer <|> boolean

end ProjectSlice.Toml
