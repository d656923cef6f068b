import ProjectSlice.Naming.Framework

/-! The class name that a file's path below the root gives it. The extension of a source file is
no part of the name. Only the mapped convention uses mappings: the first mapping whose directory
holds the file gives the name. -/
namespace ProjectSlice
open Sequence Text

def sourceExtension : Text := "php".toList

/-- A path without the extension of source files. The extension is what follows the last full
stop, unless a slash stands right before that stop. -/
def withoutExtension (path : Text) : Text :=
  match path.reverse.span (· != '.') with
  | (extension,_::stem) =>
    if lower extension.reverse = sourceExtension ∧ stem.head? ≠ some '/' then stem.reverse
    else path
  | _ => path

def replaced (old new : Char) (t : Text) : Text := t.map fun c => if c = old then new else c

def Mapping.nameOf? (mapping : Mapping) (path : Text) : Option Text :=
  match dropEndWhile (· == '/') mapping.folder with
  | [] => none
  | folder =>
    match after? (folder ++ ['/']) path with
    | none | some [] => none
    | some rest => some (mapping.stem ++ replaced '/' '_' rest)

namespace Framework

def mappedName? (mappings : List Mapping) (path : Text) : Option Text := do
  let rest ← after? "application/".toList (withoutExtension path)
  mappings.findSome? (·.nameOf? rest)

def flatName? (path : Text) : Option Text :=
  ["app/".toList,"src/".toList].findSome? fun folder => do
    let rest ← after? folder (withoutExtension path)
    match (rest.reverse.takeWhile (· != '/')).reverse with
    | [] => none
    | name => some name

def namespacedName? (path : Text) : Option Text :=
  match after? "app/".toList (withoutExtension path) with
  | none | some [] => none
  | some rest => some ("App\\".toList ++ replaced '/' '\\' rest)

def nameOf? (framework : Framework) (mappings : List Mapping) (path : Text) : Option Text :=
  match framework with
  | .zf1 => mappedName? mappings path
  | .cakephp => flatName? path
  | .laravel => namespacedName? path

end Framework
end ProjectSlice
