import ProjectSlice.Dependency
import ProjectSlice.Text.Digits

/-! The slice of a project that a selection needs: the selected files, their dependencies and the
targets of their includes, each once and in ascending order. A manifest lists the slice line by
line; includes without a target follow as comments that a reader of the list can pass over. -/
namespace ProjectSlice.Slice
open Sequence

def files (selected : List Text) (analysis : Analysis) : List Text :=
  ascending (selected ++ analysis.dependencies.map Dependency.file ++
    (analysis.includes.filter fun i => i.found.isResolved).map fun i => i.found.resolved)

def comment (i : SelectedInclude) : Text :=
  "# ".toList ++ i.source ++ [':'] ++ Text.decimal i.found.line ++ [' '] ++
    i.found.keyword.word ++ [' '] ++ i.found.expression

def comments (analysis : Analysis) : List Text :=
  match analysis.unresolved with
  | [] => []
  | unresolved => "# unresolved includes".toList::unresolved.map comment

def manifest (withComments : Bool) (selected : List Text) (analysis : Analysis) : Text :=
  let lines := files selected analysis ++ if withComments then comments analysis else []
  lines.flatMap (· ++ ['\n'])

end ProjectSlice.Slice
