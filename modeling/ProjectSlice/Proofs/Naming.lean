import ProjectSlice.Proofs.ClassIndex
import ProjectSlice.Proofs.Scan
import ProjectSlice.Proofs.Words

/-! Names of classes. A convention names a file only where the path leaves something to name it by,
and a declaration names it only where a word follows its keyword. Main statement: no index of a scan
knows the empty name. -/
namespace ProjectSlice

theorem extensionStopless {extension : Text} (source : Text.lower extension = sourceExtension) :
    '.' ∉ extension := by
  intro mem
  have absent : ('.' : Char).toLower ∉ sourceExtension := by decide
  exact absent (Scan.charOfExtension source mem)

theorem withoutExtensionSource {stem extension : Text}
    (source : Text.lower extension = sourceExtension) (ends : stem.getLast? ≠ some '/') :
    withoutExtension (stem ++ '.'::extension) = stem := by
  have others : ∀ c ∈ extension.reverse, (c != '.') = true := by
    intro c mem
    rw [bne_iff_ne]
    rintro rfl
    exact extensionStopless source (List.mem_reverse.mp mem)
  unfold withoutExtension
  rw [List.span_eq_takeWhile_dropWhile,List.reverse_append,List.reverse_cons,List.append_assoc,
    List.takeWhile_append_of_pos others,List.dropWhile_append_of_pos others]
  simp [source,ends]

theorem Declaration.nameWord {parts : List Text} {name : Text}
    (found : nameIn? parts = some name) : Text.IsWord name := by
  fun_induction nameIn? parts with
  | case1 part next rest modifier ih => exact ih found
  | case3 part next rest _ _ nonempty =>
    cases found
    exact ⟨nonempty,fun _ mem => List.mem_takeWhile_imp mem⟩
  | case2 | case4 | case5 => contradiction

theorem SourceText.declaredWord {v : Volume} {p : Path} {name : Text}
    (declared : declaredClass? v p = some name) : Text.IsWord name := by
  unfold declaredClass? at declared
  split at declared
  · obtain ⟨line,_,found⟩ := List.exists_of_findSome?_eq_some declared
    exact Declaration.nameWord found
  · contradiction

namespace Framework

theorem mappedNonempty {mappings : List Mapping} {path name : Text}
    (found : mappedName? mappings path = some name) : name ≠ [] := by
  simp only [mappedName?,bind,Option.bind_eq_some_iff] at found
  obtain ⟨rest,_,found⟩ := found
  obtain ⟨mapping,_,found⟩ := List.exists_of_findSome?_eq_some found
  unfold Mapping.nameOf? at found
  split at found
  · contradiction
  · split at found
    · contradiction
    · contradiction
    · rename_i nonempty _
      cases found
      exact List.append_ne_nil_of_right_ne_nil _ (mt List.map_eq_nil_iff.mp nonempty)

theorem flatNonempty {path name : Text} (found : flatName? path = some name) : name ≠ [] := by
  obtain ⟨folder,_,found⟩ := List.exists_of_findSome?_eq_some found
  simp only [bind,Option.bind_eq_some_iff] at found
  obtain ⟨rest,_,found⟩ := found
  split at found
  · contradiction
  · rename_i nonempty
    cases found
    exact nonempty

theorem namespacedNonempty {path name : Text} (found : namespacedName? path = some name) :
    name ≠ [] := by
  unfold namespacedName? at found
  split at found
  · contradiction
  · contradiction
  · cases found
    exact List.append_ne_nil_of_left_ne_nil (by decide) _

theorem nameNonempty {framework : Framework} {mappings : List Mapping} {path name : Text}
    (found : framework.nameOf? mappings path = some name) : name ≠ [] := by
  cases framework with
  | zf1 => exact mappedNonempty found
  | cakephp => exact flatNonempty found
  | laravel => exact namespacedNonempty found

end Framework

theorem SourceFile.nameNonempty {file : SourceFile} {v : Volume} {framework : Framework}
    {mappings : List Mapping} {name : Text}
    (named : file.className? v framework mappings = some name) : name ≠ [] := by
  rcases Option.or_eq_some_iff.mp named with convention | ⟨_,declared⟩
  · exact Framework.nameNonempty convention
  · exact (SourceText.declaredWord declared).1

theorem ProjectState.indexedNonempty {v : Volume} {root : Path} {framework : Framework}
    {mappings : List Mapping} {state : ProjectState}
    (scanned : scan v root framework mappings = .ok state) {name file : Text}
    (indexed : state.index.fileFor? name = some file) : name ≠ [] := by
  obtain ⟨_,index,_,_⟩ := scanIff.mp scanned
  rw [index] at indexed
  obtain ⟨_,_,_,named⟩ := ClassIndex.fileForSource indexed
  exact SourceFile.nameNonempty named

end ProjectSlice
