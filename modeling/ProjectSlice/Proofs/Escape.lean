import ProjectSlice.Proofs.Containment
import ProjectSlice.Proofs.Join

/-! Where includes escape a root. An include stays below a root unless the clean root ends before the
climb of a path does, and then one climb from the root itself shows in the target. Main statement:
the roots that no include escapes are those whose clean form is neither empty nor the top of the
file tree. -/
namespace ProjectSlice

namespace IncludeSite

def StaysBelow (target : Text) : Prop := target = [] ∨ ['.','.'] ∉ target.splitOn '/'
instance (target : Text) : Decidable (StaysBelow target) := by
  unfold StaysBelow; infer_instance

theorem resolveStays {site : IncludeSite}
    (further : site.root.clean ≠ [] ∧ site.root.clean ≠ [Path.slash]) (expression : Text) :
    StaysBelow (site.resolve expression) :=
  (resolveBelow further expression).imp_right fun below climbs => (below _ climbs).2.2 rfl

/- An include of a file one directory further up. -/
def aboveFolder : Text := "__DIR__ . '/../x.php'".toList

/- Where the clean root is empty or the top, a climb from the root itself stays at the beginning. -/
theorem resolveAbove {root : Path} (outermost : root.clean = [] ∨ root.clean = [Path.slash])
    (isFile : Path → Bool) :
    resolve ⟨root,root,isFile⟩ aboveFolder = "../x.php".toList := by
  have climbs : Path.components (root.join (Path.ofText "../x.php".toList)).clean =
      Path.components root.clean ++ [.up,.name (Path.ofText "x.php".toList)] := by
    rw [Path.componentsCleanJoin (by decide +kernel)]
    rcases outermost with same | same <;> rw [same] <;> decide +kernel
  have below : root.clean.relativeTo? (root.join (Path.ofText "../x.php".toList)).clean =
      some "../x.php".toList := by
    rw [Path.relativeTo?,climbs,Sequence.afterAppend]
    decide +kernel
  have application : applicationTarget? (Text.trim aboveFolder) = none := by decide +kernel
  have folder : folderTarget? ⟨root,root,isFile⟩ (Text.trim aboveFolder) =
      root.clean.relativeTo? (root.join (Path.ofText "../x.php".toList)).clean := rfl
  rw [resolve,target?,application,folder,below]
  rfl

/-- The roots that no include escapes, wherever it stands and whatever exists, are those whose clean
form is neither empty nor the top of the file tree. -/
theorem staysBelowIff (root : Path) :
    (∀ folder isFile expression, folder.isAbsolute = root.isAbsolute →
      StaysBelow (resolve ⟨folder,root,isFile⟩ expression)) ↔
    root.clean ≠ [] ∧ root.clean ≠ [Path.slash] := by
  constructor
  · intro stays
    refine not_or.mp fun outermost => ?_
    have above := stays root (fun _ => false) aboveFolder rfl
    rw [resolveAbove outermost] at above
    exact absurd above (by decide)
  · intro further folder isFile expression _
    exact resolveStays further expression

/- From a directory inside the root, two levels up: below `.` and below the top, the second level is
outside and the target says so. -/
theorem hereEscaped :
    let climb := "__DIR__ . '/../../x.php'".toList
    let here : IncludeSite := ⟨Path.ofText "app".toList,Path.ofText ".".toList,fun _ => false⟩
    let top : IncludeSite := ⟨Path.ofText "/app".toList,Path.ofText "/".toList,fun _ => false⟩
    here.folder.isAbsolute = here.root.isAbsolute ∧ top.folder.isAbsolute = top.root.isAbsolute ∧
    here.resolve climb = "../x.php".toList ∧ top.resolve climb = "../x.php".toList ∧
    ¬StaysBelow "../x.php".toList := by decide +kernel

end IncludeSite
end ProjectSlice
