import ProjectSlice.Sequence
import ProjectSlice.Json.Value

/-! JSON read from text. Every reader answers what it read and the text behind it. Containers may
be nested `deepest` times; the depth still allowed is what the reading recurs on. -/
namespace ProjectSlice.Json
open Sequence

def deepest : Nat := 127

def isSpace (c : Char) : Bool := c == ' ' || c == '\n' || c == '\r' || c == '\t'

def skipSpace (t : Text) : Text := t.dropWhile isSpace

def unescape? (c : Char) : Option Char :=
  if c = '\x22' ∨ c = '\\' ∨ c = '/' then some c
  else if c = 'b' then some '\x08'
  else if c = 'f' then some '\x0c'
  else if c = 'n' then some '\n'
  else if c = 'r' then some '\r'
  else if c = 't' then some '\t'
  else none

/-- The text of a string up to its closing quote. A character beyond U+FFFF may be escaped as a
pair of surrogates; a surrogate alone is refused. -/
def stringRest : Text → Option (Text × Text)
  | [] => none
  | '\x22'::t => some ([],t)
  | '\\' :: 'u' :: a :: b :: c :: d :: t =>
    match Text.hexNumber? [a,b,c,d] with
    | none => none
    | some high =>
      if 0xDC00 ≤ high ∧ high < 0xE000 then none
      else if 0xD800 ≤ high ∧ high < 0xDC00 then
        match t with
        | '\\' :: 'u' :: e :: f :: g :: h :: t =>
          match Text.hexNumber? [e,f,g,h] with
          | none => none
          | some low =>
            if 0xDC00 ≤ low ∧ low < 0xE000 then
              (stringRest t).map fun (text,rest) =>
                (Char.ofNat (0x10000 + (high - 0xD800) * 1024 + (low - 0xDC00))::text,rest)
            else none
        | _ => none
      else (stringRest t).map fun (text,rest) => (Char.ofNat high::text,rest)
  | '\\'::c::t =>
    match unescape? c with
    | none => none
    | some e => (stringRest t).map fun (text,rest) => (e::text,rest)
  | c::t =>
    if c.toNat < 0x20 ∨ c = '\\' then none
    else (stringRest t).map fun (text,rest) => (c::text,rest)

def digits? (t : Text) : Option (Text × Text) :=
  match t.span Char.isDigit with
  | ([],_) => none
  | found => some found

def number? (t : Text) : Option (Text × Text) := do
  let (sign,t) := match t with
    | '-'::t => (['-'],t)
    | _ => ([],t)
  let (whole,t) ← digits? t
  if whole.head? = some '0' ∧ whole.length ≠ 1 then none
  let (fraction,t) ← match t with
    | '.'::t => (digits? t).map fun (found,t) => ('.'::found,t)
    | _ => some ([],t)
  match t with
  | e::t' =>
    if e = 'e' ∨ e = 'E' then
      let (mark,t') := match t' with
        | '+'::t' => (['+'],t')
        | '-'::t' => (['-'],t')
        | _ => ([],t')
      let (exponent,t') ← digits? t'
      some (sign ++ whole ++ fraction ++ e::mark ++ exponent,t')
    else some (sign ++ whole ++ fraction,t)
  | [] => some (sign ++ whole ++ fraction,[])

def elements {α : Type} (element : Text → Option (α × Text)) (closing : Char) :
    (room : Nat) → Text → Option (List α × Text)
  | 0,_ => none
  | room + 1,t =>
    match element t with
    | none => none
    | some (x,t) =>
      match skipSpace t with
      | [] => none
      | c::t =>
        if c = ',' then
          match elements element closing room t with
          | none => none
          | some (xs,t) => some (x::xs,t)
        else if c = closing then some ([x],t)
        else none

def member (value : Text → Option (Json × Text)) (t : Text) : Option ((Text × Json) × Text) :=
  match skipSpace t with
  | '\x22'::t =>
    match stringRest t with
    | none => none
    | some (name,t) =>
      match skipSpace t with
      | ':'::t =>
        match value t with
        | none => none
        | some (x,t) => some ((name,x),t)
      | _ => none
  | _ => none

def value (room : Nat) : (depth : Nat) → Text → Option (Json × Text)
  | depth,t =>
    match skipSpace t with
    | [] => none
    | c::t =>
      if c = '\x22' then (stringRest t).map fun (text,rest) => (.string text,rest)
      else if c = '[' then
        match depth with
        | 0 => none
        | depth + 1 =>
          match skipSpace t with
          | ']'::rest => some (.array [],rest)
          | _ => (elements (value room depth) ']' room t).map fun (xs,rest) => (.array xs,rest)
      else if c = '\x7b' then
        match depth with
        | 0 => none
        | depth + 1 =>
          match skipSpace t with
          | '\x7d'::rest => some (.object [],rest)
          | _ =>
            (elements (member (value room depth)) '\x7d' room t).map fun (fields,rest) =>
              (.object fields,rest)
      else if c = 'n' then (after? ['u','l','l'] t).map fun rest => (.null,rest)
      else if c = 't' then (after? ['r','u','e'] t).map fun rest => (.bool true,rest)
      else if c = 'f' then (after? ['a','l','s','e'] t).map fun rest => (.bool false,rest)
      else (number? (c::t)).map fun (digits,rest) => (.number digits,rest)

def parse? (t : Text) : Option Json :=
  match value t.length deepest t with
  | some (x,rest) => if (skipSpace rest).isEmpty then some x else none
  | none => none

end ProjectSlice.Json
