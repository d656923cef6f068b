import ProjectSlice.Text.Basic

/-! Frameworks and prefix mappings. A framework fixes how a project lays out its classes; a mapping
binds the prefix of class names to a directory below `application`, and the order of a list of
mappings is their precedence. -/
namespace ProjectSlice
open Text

inductive Framework where
  | zf1
  | cakephp
  | laravel
  deriving DecidableEq, Repr

namespace Framework

def all : List Framework := [.zf1,.cakephp,.laravel]

def word : Framework → Text
  | .zf1 => "zf1".toList
  | .cakephp => "cakephp".toList
  | .laravel => "laravel".toList

def ofWord? (t : Text) : Option Framework := all.find? fun framework => framework.word == t

/-- The framework that a person names, or the complaint that there is none of the name: blanks
around it and the case of ASCII letters do not matter, and two frameworks have a second name. -/
def parse (t : Text) : Except Text Framework :=
  let name := lower (trim t)
  if name = "zend".toList then .ok .zf1
  else if name = "cake".toList then .ok .cakephp
  else match ofWord? name with
    | some framework => .ok framework
    | none => .error ("unknown framework: ".toList ++ name)

end Framework

structure Mapping where
  stem : Text
  folder : Text
  deriving DecidableEq, Repr

namespace Mapping

def defaults : List Mapping := [
  ⟨"Parent_".toList,"parents/".toList⟩,
  ⟨"DbTable_".toList,"dbs/".toList⟩,
  ⟨"Service_".toList,"services/".toList⟩,
  ⟨"Model_".toList,"models/".toList⟩,
  ⟨"Form_".toList,"forms/".toList⟩]

def orDefaults : List Mapping → List Mapping
  | [] => defaults
  | mappings => mappings

/-- A mapping written as prefix, equals sign and directory, blanks around either dropped; the first
equals sign counts. -/
def parse (argument : Text) : Except Text Mapping :=
  let complaint := "invalid prefix mapping \x27".toList ++ argument ++
    "\x27, expected PREFIX=DIR".toList
  match argument.span (· != '=') with
  | (stem,_::folder) =>
    if trim stem = [] ∨ trim folder = [] then .error complaint
    else .ok ⟨trim stem,trim folder⟩
  | _ => .error complaint

end Mapping
end ProjectSlice
