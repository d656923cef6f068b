import ProjectSlice.Text.Blank

/-! Class references: the six ways in which a source line can use a class, and what is recorded of
one use. The ways are `new C`, `extends C`, `implements A, B`, `C::member`, a typed parameter as in
`function f(C $x)`, and an import by `use App\C`, `App::uses('C')` or `App::import('T', 'C')`. -/
namespace ProjectSlice

inductive ReferenceKind where
  | instantiation
  | inheritance
  | implementation
  | staticAccess
  | typeHint
  | importing
  deriving DecidableEq, Repr

namespace ReferenceKind

def all : List ReferenceKind :=
  [.instantiation,.inheritance,.implementation,.staticAccess,.typeHint,.importing]

def word : ReferenceKind → Text
  | .instantiation => "new".toList
  | .inheritance => "extends".toList
  | .implementation => "implements".toList
  | .staticAccess => "static".toList
  | .typeHint => "typehint".toList
  | .importing => "use".toList

def ofWord? (t : Text) : Option ReferenceKind := all.find? fun kind => kind.word == t

theorem ofWordOfWord (kind : ReferenceKind) : ofWord? kind.word = some kind := by
  cases kind <;> decide

theorem memAll (kind : ReferenceKind) : kind ∈ all := by cases kind <;> decide

end ReferenceKind

structure Reference where
  className : Text
  kind : ReferenceKind
  line : Nat
  deriving DecidableEq, Repr

end ProjectSlice
