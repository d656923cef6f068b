import ProjectSlice.Command.Run
import ProjectSlice.Proofs.Command.Arguments
import ProjectSlice.Proofs.FileTree.Write

/-! The outcome of a run. Nothing is written before a text is complete, and a complete text goes to
one place, so a run ends in one of four ways and leaves a changed tree in one of them only. Main
statement: a run that fails leaves the tree as it was, a run that succeeds changes at most the
output file that it is given, and what it writes there is what the same action prints. -/
namespace ProjectSlice.Command
open Text

/-- The ways in which a run ends that asks for no text about the program. -/
inductive Ending (v : Volume) (arguments : List Text) : Outcome → Prop where
  | rejected (bad : parse arguments = none) : Ending v arguments ⟨2,[],none,v⟩
  | failed {asked : Invocation} (complaint : Complaint)
      (asks : parse arguments = some (.run asked)) :
      Ending v arguments ⟨1,[],some complaint,v⟩
  | printed {action : Action} {verbose : Bool} {rendered : Text}
      (asks : parse arguments = some (.run ⟨action,none,verbose⟩))
      (renders : action.render v = .ok rendered) :
      Ending v arguments ⟨0,trimEnd rendered ++ ['\n'],none,v⟩
  | wrote {action : Action} {path : Path} {verbose : Bool} {rendered : Text} {changed : Volume}
      (asks : parse arguments = some (.run ⟨action,some path,verbose⟩))
      (renders : action.render v = .ok rendered)
      (writes : v.write path (Utf8.encode rendered) = .ok changed) :
      Ending v arguments ⟨0,[],none,changed⟩

variable {v : Volume} {arguments : List Text}

theorem emitEnds {action : Action} {output : Option Path} {verbose : Bool} {rendered : Text}
    (asks : parse arguments = some (.run ⟨action,output,verbose⟩))
    (renders : action.render v = .ok rendered) : Ending v arguments (emit v output rendered) := by
  unfold emit
  split
  · exact .printed asks renders
  · split
    · rename_i writes
      exact .wrote asks renders writes
    · exact .failed _ asks

theorem runEnds (noVersion : parse arguments ≠ some .version)
    (noHelp : parse arguments ≠ some .help) : Ending v arguments (run v arguments) := by
  unfold run
  split
  · rename_i bad
    exact .rejected bad
  · contradiction
  · contradiction
  · rename_i asked asks
    split
    · exact .failed _ asks
    · rename_i renders
      exact emitEnds asks renders

theorem runPrints {action : Action} {verbose : Bool} {rendered : Text}
    (asks : parse arguments = some (.run ⟨action,none,verbose⟩))
    (renders : action.render v = .ok rendered) :
    run v arguments = ⟨0,trimEnd rendered ++ ['\n'],none,v⟩ := by
  simp only [run,asks,renders,emit]

namespace Ending

variable {outcome : Outcome}

theorem exitCodes (ends : Ending v arguments outcome) : outcome.code ∈ [0,1,2] := by
  cases ends <;> simp

theorem failureKeeps (ends : Ending v arguments outcome) (fails : outcome.code ≠ 0) :
    outcome.volume = v ∧ outcome.stdout = [] := by
  cases ends with
  | rejected | failed => exact ⟨rfl,rfl⟩
  | printed | wrote => contradiction

theorem successChanges (ends : Ending v arguments outcome)
    (work : Volume.IsFolder v.top v.workFolder) (succeeds : outcome.code = 0) :
    ∃ asked, parse arguments = some (.run asked) ∧ (asked.output = none → outcome.volume = v) ∧
      ∀ path, asked.output = some path → outcome.stdout = [] ∧
        ∃ position, v.fileFor? path = some position ∧ v.SameBut position outcome.volume := by
  cases ends with
  | rejected | failed => contradiction
  | printed asks => exact ⟨_,asks,fun _ => rfl,nofun⟩
  | wrote asks _ writes =>
    obtain ⟨position,names,same,_⟩ := Volume.writeOnlyFile work writes
    refine ⟨_,asks,nofun,?_⟩
    rintro _ ⟨⟩
    exact ⟨rfl,position,names,same⟩

theorem writesPrinted (ends : Ending v arguments outcome)
    (work : Volume.IsFolder v.top v.workFolder) (succeeds : outcome.code = 0) {others : List Text}
    {action : Action} {path : Path} {verbose quiet : Bool}
    (asks : parse arguments = some (.run ⟨action,some path,verbose⟩))
    (prints : parse others = some (.run ⟨action,none,quiet⟩)) :
    (run v others).code = 0 ∧ ∃ text, outcome.volume.read path = .ok (Utf8.encode text) ∧
      (run v others).stdout = trimEnd text ++ ['\n'] := by
  cases ends with
  | rejected | failed => contradiction
  | printed asksNone => cases asksNone.symm.trans asks
  | wrote asksSame renders writes =>
    cases asksSame.symm.trans asks
    obtain ⟨_,_,_,_,content⟩ := Volume.writeOnlyFile work writes
    rw [runPrints prints renders]
    exact ⟨rfl,_,content,rfl⟩

end Ending

/-- The first command line names an output file, and the second one is the same without it. -/
def Redirects (path : Path) (arguments others : List Text) : Prop :=
  ∃ action verbose quiet, parse arguments = some (.run ⟨action,some path,verbose⟩) ∧
    parse others = some (.run ⟨action,none,quiet⟩)

theorem redirectsInFront {action : Action} {path : Text} {verbose : Bool}
    (prints : parse arguments = some (.run ⟨action,none,verbose⟩)) (nonempty : path ≠ []) :
    Redirects (Path.ofText path) (outputArgument path::arguments) arguments :=
  ⟨action,verbose,verbose,parseWithOutput prints nonempty,prints⟩

/-- A run is atomic in its output. The last two parts are about two runs: what a command line
writes with an output file is what it prints without it, and it gets one by an option in front. -/
theorem runAtomic (v : Volume) (arguments : List Text)
    (work : Volume.IsFolder v.top v.workFolder)
    (noText : parse arguments ≠ some .version ∧ parse arguments ≠ some .help) :
    let outcome := run v arguments
    outcome.code ∈ [0,1,2] ∧
    (outcome.code = 1 ∨ outcome.code = 2 → outcome.volume = v) ∧
    (outcome.code = 0 → ∃ asked, parse arguments = some (.run asked) ∧
      (asked.output = none → outcome.volume = v) ∧
      ∀ path, asked.output = some path → outcome.stdout = [] ∧
        ∃ position, v.fileFor? path = some position ∧ v.SameBut position outcome.volume) ∧
    (∀ path others, Redirects path arguments others → outcome.code = 0 →
      (run v others).code = 0 ∧
      ∃ text, outcome.volume.read path = .ok (Utf8.encode text) ∧
        (run v others).stdout = trimEnd text ++ ['\n']) ∧
    ∀ action path verbose, parse arguments = some (.run ⟨action,none,verbose⟩) → path ≠ [] →
      Redirects (Path.ofText path) (outputArgument path::arguments) arguments := by
  have ends := runEnds (v := v) noText.1 noText.2
  refine ⟨ends.exitCodes,?_,ends.successChanges work,?_,fun _ _ _ => redirectsInFront⟩
  · intro fails
    exact (ends.failureKeeps (by omega)).1
  · rintro path others ⟨action,verbose,quiet,asks,prints⟩ succeeds
    exact ends.writesPrinted work succeeds asks prints

/- A shop with one program, in which the command runs. -/
def carShop : Volume :=
  let name (s : String) : Bytes := Path.ofText s.toList
  let program := Path.ofText "<?php\n$car = new Car();\n".toList
  ⟨.folder (name "shop") (.file (name "run.php") program .empty) .empty,[name "shop"]⟩

/- The references of the program, first written to a file of the shop and then printed. -/
theorem carListed :
    let arguments := List.map String.toList ["refs","run.php","-o","out.json"]
    let others := List.map String.toList ["refs","run.php"]
    let path := Path.ofText "out.json".toList
    let car := ["\"className\": \"Car\",","\"refType\": \"new\",","\"line\": 2"]
    let printed := "[\n  \x7b\n    " ++ "\n    ".intercalate car ++ "\n  \x7d\n]"
    Volume.IsFolder carShop.top carShop.workFolder ∧
    (parse arguments ≠ some .version ∧ parse arguments ≠ some .help) ∧
    Redirects path arguments others ∧ (run carShop arguments).code = 0 ∧
    (run carShop arguments).stdout = [] ∧
    carShop.SameBut (carShop.workFolder ++ [path]) (run carShop arguments).volume ∧
    (run carShop others).stdout = printed.toList ++ ['\n'] ∧
    ∃ text, (run carShop arguments).volume.read path = .ok (Utf8.encode text) ∧
      trimEnd text = printed.toList := by
  intro arguments others path car printed
  have work : Volume.IsFolder carShop.top carShop.workFolder := ⟨_,rfl⟩
  have noText : parse arguments ≠ some .version ∧ parse arguments ≠ some .help := by decide +kernel
  let refs := Action.references (Path.ofText "run.php".toList)
  have asks : parse arguments = some (.run ⟨refs,some path,false⟩) := by decide +kernel
  have pair : Redirects path arguments others := ⟨refs,false,false,asks,by decide +kernel⟩
  have succeeds : (run carShop arguments).code = 0 := by decide +kernel
  have names : carShop.fileFor? path = some (carShop.workFolder ++ [path]) := by decide +kernel
  have shown : (run carShop others).stdout = printed.toList ++ ['\n'] := by decide +kernel
  obtain ⟨_,_,changes,twice,_⟩ := runAtomic carShop arguments work noText
  obtain ⟨asked,asksSame,_,changed⟩ := changes succeeds
  cases asksSame.symm.trans asks
  obtain ⟨quiet,_,namesSame,same⟩ := changed path rfl
  cases namesSame.symm.trans names
  obtain ⟨_,text,content,again⟩ := twice path others pair succeeds
  exact ⟨work,noText,pair,succeeds,quiet,same,shown,text,content,
    List.append_cancel_right (again.symm.trans shown)⟩

end ProjectSlice.Command
