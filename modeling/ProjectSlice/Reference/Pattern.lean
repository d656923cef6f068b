import ProjectSlice.Reference.Kind
import ProjectSlice.Text.Basic
import ProjectSlice.Text.Search
import ProjectSlice.Text.Word

/-! The six patterns that show a class in use. Each reads one line, in which a class name is a
class word: a longest run of word characters that opens with an ASCII capital and has at least two
characters. Only the lists behind `implements` and the imports take names of other forms. -/
namespace ProjectSlice.ReferenceKind
open Sequence Text

def keyword? (word : Text) (before : Option Char) (t : Text) : Option Text :=
  if opensWord before then after? word t else none

def behindKeyword (word : Text) : Recogniser Text := fun before t => do
  let t ← keyword? word before t
  let t ← afterBlanks? t
  classWord? t

def scopeOwner : Recogniser Text := fun before t => do
  if opensWord before then
    let (name,t) ← classWord? t
    let t ← after? [':',':'] t
    some (name,t)
  else none

def isNameChar (c : Char) : Bool := isWord c || c == '\\'

/-- The names at the beginnings of the parts of a list, up to the first part that is not one name
with blanks around it. -/
def listedNames : List Text → List Text
  | [] => []
  | part::parts =>
    let (name,rest) := (trimStart part).span isNameChar
    if name = [] then []
    else if rest.all isBlank then name::listedNames parts
    else [name]

def interfaceList : Recogniser (List Text) := fun before t => do
  let t ← keyword? "implements".toList before t
  let t ← afterBlanks? t
  match listedNames (t.splitOn ',') with
  | [] => none
  | names => some (names,t)

/-- The parameter list that is opened behind the word `function`, as far as its first closing
parenthesis. -/
def parameterList : Recogniser Text := fun before t => do
  let t ← keyword? "function".toList before t
  if t.head?.any isWord then none
  else
    let t ← after? ['('] (t.dropWhile (· != '('))
    some (t.span (· != ')'))

/-- A class word that stands before a parameter: blanks, at most one ampersand, at most one
ellipsis, a dollar sign. -/
def parameterType : Recogniser Text := fun before t => do
  if opensWord before then
    let (name,t) ← classWord? t
    let t ← afterBlanks? t
    let t := (after? ['&'] t).getD t
    let t := (after? ['.','.','.'] t).getD t
    let t ← after? ['$'] t
    some (name,t)
  else none

def usedName? (line : Text) : Option Text := do
  let t ← after? ['u','s','e'] (trim line)
  let t ← afterBlanks? t
  let t ← after? ['A','p','p','\\'] t
  match t.takeWhile isNameChar with
  | [] => none
  | name => some (dropEndWhile (· == '\\') ("App\\".toList ++ name))

def isQuote (c : Char) : Bool := c == '\x27' || c == '\x22'

def quotedWord? (t : Text) : Option (Text × Text) :=
  match t with
  | [] => none
  | q::t =>
    match spanWord t with
    | ([],_) | (_,[]) => none
    | (word,p::rest) => if isQuote q && isQuote p then some (word,rest) else none

def argument? (t : Text) : Option (Text × Text) := do
  let t ← after? ['('] (trimStart t)
  quotedWord? (trimStart t)

def registeredClass : Recogniser Text := fun _ t => do
  let t ← after? "App::uses".toList t
  argument? t

def importedClass : Recogniser Text := fun _ t => do
  let t ← after? "App::import".toList t
  let (_,t) ← argument? t
  let t ← after? [','] (trimStart t)
  quotedWord? (trimStart t)

def selfReferences : List Text := ["self".toList,"static".toList,"parent".toList]

def names (line : Text) : ReferenceKind → List Text
  | .instantiation => search (behindKeyword "new".toList) line
  | .inheritance => (first? (behindKeyword "extends".toList) line).toList
  | .implementation =>
    ((first? interfaceList line).getD []).map (·.dropWhile (· == '\\')) |>.filter (· != [])
  | .staticAccess => (search scopeOwner line).filter fun name => !selfReferences.contains name
  | .typeHint => (search parameterList line).flatMap (search parameterType)
  | .importing =>
    (usedName? line).toList ++ search registeredClass line ++ search importedClass line

end ProjectSlice.ReferenceKind
