import ProjectSlice.Reference.Pattern

/-! The references of a source text. Comment lines are passed over, names that never belong to a
project are dropped, and each pair of a name and a kind is recorded once, for its first line. -/
namespace ProjectSlice
open Text

def builtinNames : List Text := List.map String.toList [
  "self","static","parent",
  "stdClass","Exception","RuntimeException","InvalidArgumentException","LogicException",
  "DateTime","DateTimeImmutable","DateInterval",
  "ArrayObject","ArrayIterator","Iterator","Countable","Serializable","JsonSerializable",
  "Closure","Generator","Throwable","Error","TypeError","ValueError",
  "PDO","PDOStatement","PDOException",
  "SplFileInfo","SplFileObject","SplHeap","SplStack","SplQueue","SplPriorityQueue",
  "DOMDocument","DOMElement","DOMNode",
  "SimpleXMLElement","XMLReader","XMLWriter",
  "ReflectionClass","ReflectionMethod",
  "SoapClient","SoapServer",
  "mysqli","mysqli_result",
  "null","true","false",
  "int","float","string","bool","array","object","void","mixed",
  "callable","iterable","never"]

def frameworkStems : List Text :=
  List.map String.toList ["Zend_","ZendX_","Cake","Illuminate\\","Symfony\\","PHPUnit"]

def isDenied (name : Text) : Bool :=
  builtinNames.contains name || frameworkStems.any fun stem => stem.isPrefixOf name

def isComment (line : Text) : Bool :=
  let t := trim line
  ['/','/'].isPrefixOf t || ['/','*'].isPrefixOf t || ['*'].isPrefixOf t

namespace Reference

def mentions (kinds : List ReferenceKind) (line : Text × Nat) : List Reference :=
  if isComment line.1 then []
  else kinds.flatMap fun kind =>
    (kind.names line.1).map fun name => ⟨trim name,kind,line.2⟩

def record (found : List Reference) (new : Reference) : List Reference :=
  if new.className = [] ∨ isDenied new.className
      ∨ found.any (fun r => r.className == new.className && r.kind == new.kind) then found
  else found ++ [new]

def extract (kinds : List ReferenceKind) (source : Text) : List Reference :=
  (((lines source).zipIdx 1).flatMap (mentions kinds)).foldl record []

end Reference
end ProjectSlice
