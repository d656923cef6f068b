import ProjectSlice.Text.Basic
import ProjectSlice.Text.Search
import ProjectSlice.Text.Word

/-! Include statements. A statement is one of four keywords, an optional opening parenthesis, an
expression, an optional closing parenthesis and a semicolon, with blanks allowed in between. The
expression has at least one character, which alone may be a semicolon; it begins behind all blanks
and the parenthesis where it can. -/
namespace ProjectSlice

inductive IncludeKeyword where
  | require
  | requireOnce
  | include
  | includeOnce
  deriving DecidableEq, Repr

namespace IncludeKeyword
open Text

def all : List IncludeKeyword := [.require,.requireOnce,.include,.includeOnce]

def word : IncludeKeyword → Text
  | .require => "require".toList
  | .requireOnce => "require_once".toList
  | .include => "include".toList
  | .includeOnce => "include_once".toList

def ofWord? (t : Text) : Option IncludeKeyword := all.find? fun keyword => keyword.word == t

def parse (t : Text) : Except Text IncludeKeyword :=
  match ofWord? t with
  | some keyword => .ok keyword
  | none => .error ("not an include keyword: ".toList ++ t)

theorem ofWordOfWord (keyword : IncludeKeyword) : ofWord? keyword.word = some keyword := by
  cases keyword <;> decide

end IncludeKeyword

structure IncludeStatement where
  keyword : IncludeKeyword
  expression : Text
  deriving DecidableEq, Repr

namespace IncludeStatement
open Sequence Text

def withoutClosing (t : Text) : Text :=
  let t := trimEnd t
  if t.getLast? = some ')' then trimEnd t.dropLast else t

def expression? : Text → Option Text
  | [] => none
  | c::t => if t.contains ';' then some (c::withoutClosing (t.takeWhile (· != ';'))) else none

def beginning (t : Text) : Text :=
  match trimStart t with
  | '('::inner => trimStart inner
  | inner => inner

/-- The expression behind a keyword. Where none begins at its place, because the last semicolon
stands there, it begins one character earlier. -/
def expressionBehind? (t : Text) : Option Text :=
  let inner := beginning t
  match expression? inner with
  | some expression => some expression
  | none => expression? (t.drop (t.length - inner.length - 1))

def read : Recogniser IncludeStatement := fun before t =>
  if opensWord before then
    let (word,rest) := spanWord t
    match IncludeKeyword.ofWord? word with
    | none => none
    | some keyword =>
      (expressionBehind? rest).map fun expression => (⟨keyword,trim expression⟩,rest)
  else none

/-- The first statement of a line. A statement ends in a semicolon, so nothing behind the last one
matters. -/
def ofLine? (line : Text) : Option IncludeStatement :=
  first? read (dropEndWhile (· != ';') line)

end IncludeStatement
end ProjectSlice
