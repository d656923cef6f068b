import Mathlib.Data.List.TakeDrop
import ProjectSlice.Command.Arguments

/-! Arguments with one more option. Every side of the command word collects what it is given, and
only a second option of the same kind would be refused, so an option that is given in front of all
others changes nothing but its own value. Main statement: a command line that names no output file is
read as the same action when one is named in front of it. -/
namespace ProjectSlice.Command

namespace Given

def withOutput (path : Text) (given : Given) : Given :=
  ⟨given.flags ++ [(.output,path)],given.words⟩

def LacksOutput (given : Given) : Prop := ∀ entry ∈ given.flags, entry.1 ≠ .output

theorem addFlagEntry {given further : Given} {flag : Flag} {value : Text}
    (added : given.addFlag flag value = some further) :
    further = ⟨(flag,value)::given.flags,given.words⟩ := by
  unfold addFlag at added
  split at added
  · contradiction
  · split at added
    · contradiction
    · exact (Option.some.inj added).symm

theorem addFlagSuffix {given further : Given} {flag : Flag} {value : Text}
    (added : given.addFlag flag value = some further) : given.flags <:+ further.flags := by
  rw [addFlagEntry added]
  exact List.suffix_cons _ _

theorem addFlagWithOutput {given further : Given} {flag : Flag} {value : Text} (path : Text)
    (added : given.addFlag flag value = some further) (other : flag ≠ .output) :
    (given.withOutput path).addFlag flag value = some (further.withOutput path) := by
  cases addFlagEntry added
  unfold addFlag at added ⊢
  have new : (Flag.output == flag) = false := beq_eq_false_iff_ne.mpr (Ne.symm other)
  have same : (given.withOutput path).flags.any (·.1 == flag) = given.flags.any (·.1 == flag) := by
    simp only [withOutput,List.any_append,List.any_cons,List.any_nil,new,Bool.or_false]
  rw [same]
  split at added
  · contradiction
  · rename_i accepted
    split at added
    · contradiction
    · rename_i once
      rw [if_neg accepted,if_neg once]
      rfl

theorem addWordWithOutput {given further : Given} {side : Side} {word : Text} (path : Text)
    (added : given.addWord side word = some further) :
    (given.withOutput path).addWord side word = some (further.withOutput path) := by
  unfold addWord at added ⊢
  split at added
  · contradiction
  · rename_i room
    split at added
    · contradiction
    · rename_i nonempty
      cases added
      exact (if_neg room).trans (if_neg nonempty)

theorem addWordFlags {given further : Given} {side : Side} {word : Text}
    (added : given.addWord side word = some further) : further.flags = given.flags := by
  unfold addWord at added
  split at added
  · contradiction
  · split at added
    · contradiction
    · cases added
      rfl

theorem valueWithOutput {given : Given} (lacks : given.LacksOutput) (path : Text) :
    (given.withOutput path).value? .output = some path := by
  have other : ∀ entry ∈ given.flags, ¬ (entry.1 == Flag.output) := by
    simpa [LacksOutput] using lacks
  simp [value?,withOutput,List.find?_append,List.find?_eq_none.mpr other]

theorem hasWithOutput (given : Given) (path : Text) :
    (given.withOutput path).has .verbose = given.has .verbose := by
  simp [has,withOutput]

theorem valueLacks {given : Given} : given.value? .output = Option.none ↔ given.LacksOutput := by
  simp [value?,LacksOutput]

end Given
open Given

theorem takePlainFlags {given further : Given} {flags : List Flag}
    (taken : takePlain given flags = .ok further) : given.flags <:+ further.flags := by
  fun_induction takePlain given flags with
  | case1 given =>
    cases taken
    exact List.suffix_rfl
  | case2 | case3 | case5 => contradiction
  | case4 _ _ _ _ _ _ added ih => exact (addFlagSuffix added).trans (ih taken)

theorem takePlainWithOutput {given further : Given} {flags : List Flag} (path : Text)
    (taken : takePlain given flags = .ok further) :
    takePlain (given.withOutput path) flags = .ok (further.withOutput path) := by
  fun_induction takePlain given flags with
  | case1 given =>
    cases taken
    rfl
  | case2 | case3 | case5 => contradiction
  | case4 given flag flags notVersion notHelp next added ih =>
    -- An output file cannot be given without its value.
    have other : flag ≠ .output := by
      rintro rfl
      contradiction
    rw [takePlain,addFlagWithOutput path added other]
    · exact ih taken
    · exact notVersion
    · exact notHelp

/- Flags without value stop the reading for a text about the program, or they break a rule. -/
theorem takePlainError {given : Given} {flags : List Flag} {reading : Reading}
    (failed : takePlain given flags = .error reading) :
    reading = .stopped .version ∨ reading = .stopped .help ∨ reading = .rejected := by
  fun_induction takePlain given flags with
  | case1 => contradiction
  | case2 =>
    cases failed
    exact .inl rfl
  | case3 =>
    cases failed
    exact .inr (.inl rfl)
  | case4 _ _ _ _ _ _ _ ih => exact ih failed
  | case5 =>
    cases failed
    exact .inr (.inr rfl)

theorem takePlainNoCommand {given g : Given} {flags : List Flag} {word : Text} {rest : List Text} :
    takePlain given flags ≠ .error (.command g word rest) := by
  intro failed
  obtain stops | stops | stops := takePlainError failed <;> cases stops

theorem readFlags {side : Side} {onlyWords : Bool} {given g : Given} {arguments : List Text}
    {word : Text} {rest : List Text}
    (reads : read side onlyWords given arguments = .command g word rest) :
    given.flags <:+ g.flags := by
  fun_induction read side onlyWords given arguments with
  | case1 | case5 | case6 | case10 | case11 | case12 | case14 => contradiction
  | case2 =>
    cases reads
    exact List.suffix_rfl
  | case3 _ _ _ _ _ _ ih => exact ih reads
  | case4 _ _ _ _ _ _ _ _ added ih => exact addWordFlags added ▸ ih reads
  | case7 _ _ _ _ _ _ _ _ _ _ _ taken => exact absurd (reads ▸ taken) takePlainNoCommand
  | case8 _ _ _ _ _ _ _ _ _ taken _ ih => exact (takePlainFlags taken).trans (ih reads)
  | case9 _ _ _ _ _ _ _ _ _ taken _ _ _ added _ ih =>
    exact (takePlainFlags taken).trans ((addFlagSuffix added).trans (ih reads))
  | case13 _ _ _ _ _ _ _ _ taken _ _ _ _ _ added _ ih =>
    exact (takePlainFlags taken).trans ((addFlagSuffix added).trans (ih reads))

/- What is added before the command word is still given there. -/
theorem addedOther {given further g : Given} {flag : Flag} {value : Text}
    (added : given.addFlag flag value = some further) (kept : further.flags <:+ g.flags)
    (lacks : g.LacksOutput) : flag ≠ .output := by
  refine lacks (flag,value) (kept.subset ?_)
  rw [addFlagEntry added]
  exact List.mem_cons_self

/- Only a second output file would be refused, and up to the command word there is none. -/
theorem readWithOutput {side : Side} {onlyWords : Bool} {given g : Given} {arguments : List Text}
    {word : Text} {rest : List Text} (path : Text)
    (reads : read side onlyWords given arguments = .command g word rest)
    (lacks : g.LacksOutput) :
    read side onlyWords (given.withOutput path) arguments =
      .command (g.withOutput path) word rest := by
  fun_induction read side onlyWords given arguments with
  | case1 | case5 | case6 | case10 | case11 | case12 | case14 => contradiction
  | case2 _ _ _ _ isCommand =>
    cases reads
    rw [read,if_pos isCommand]
  | case3 _ _ _ _ noCommand hyphens ih =>
    rw [read,if_neg noCommand,if_pos hyphens]
    exact ih reads
  | case4 _ _ _ _ noCommand noHyphens isWord _ added ih =>
    rw [read,if_neg noCommand,if_neg noHyphens,if_pos isWord,addWordWithOutput path added]
    exact ih reads
  | case7 _ _ _ _ _ _ _ _ _ _ _ taken => exact absurd (reads ▸ taken) takePlainNoCommand
  | case8 _ _ _ _ noCommand noHyphens noWord _ _ taken cluster ih =>
    rw [read,if_neg noCommand,if_neg noHyphens,if_neg noWord,cluster]
    simp only [takePlainWithOutput path taken]
    exact ih reads
  | case9 _ _ _ _ noCommand noHyphens noWord _ _ taken _ _ _ added cluster ih =>
    rw [read,if_neg noCommand,if_neg noHyphens,if_neg noWord,cluster]
    simp only [takePlainWithOutput path taken,
      addFlagWithOutput path added (addedOther added (readFlags reads) lacks)]
    exact ih reads
  | case13 _ _ _ noCommand noHyphens noWord _ _ taken _ _ _ noFlag _ added cluster ih =>
    rw [read,if_neg noCommand,if_neg noHyphens,if_neg noWord,cluster]
    simp only [takePlainWithOutput path taken,if_neg noFlag,
      addFlagWithOutput path added (addedOther added (readFlags reads) lacks)]
    exact ih reads

theorem readNoRun {side : Side} {onlyWords : Bool} {given : Given} {arguments : List Text}
    {invocation : Invocation} :
    read side onlyWords given arguments ≠ .stopped (.run invocation) := by
  fun_induction read side onlyWords given arguments with
  | case1 | case2 | case5 | case6 | case10 | case11 | case12 | case14 => exact Reading.noConfusion
  | case3 | case4 | case8 | case9 | case13 => assumption
  | case7 _ _ _ _ _ _ _ _ _ _ _ taken =>
    rintro rfl
    obtain stops | stops | stops := takePlainError taken <;> cases stops

theorem helpNoRun {rest : List Text} {invocation : Invocation} :
    helpRequest rest ≠ some (.run invocation) := by
  intro asked
  unfold helpRequest at asked
  split at asked
  · cases asked
  · split at asked <;> cases asked
  · cases asked

def invocation (action : Action) (before behind : Given) : Invocation :=
  ⟨action,((behind.value? .output).or (before.value? .output)).map Path.ofText,
    behind.has .verbose || before.has .verbose⟩

theorem parseRun {arguments : List Text} {asked : Invocation} :
    parse arguments = some (.run asked) ↔
      ∃ before word rest entry behind action,
        read front false Given.none arguments = .command before word rest ∧
        word ≠ helpWord ∧ sides.find? (·.1 == word) = some entry ∧
        read entry.2 false Given.none rest = .finished behind ∧
        action? word behind = some action ∧ asked = invocation action before behind := by
  constructor
  · intro parsed
    unfold parse at parsed
    split at parsed
    next stopped =>
      cases parsed
      exact absurd stopped readNoRun
    next => contradiction
    next => contradiction
    next before word rest reads =>
      split at parsed
      next => exact absurd parsed helpNoRun
      next noHelp =>
        split at parsed
        next => contradiction
        next entry side found =>
          split at parsed
          next stopped =>
            cases parsed
            exact absurd stopped readNoRun
          next => contradiction
          next => contradiction
          next behind finished =>
            obtain ⟨action,named,yields⟩ := Option.bind_eq_some_iff.mp parsed
            cases yields
            exact ⟨before,word,rest,_,behind,action,reads,noHelp,found,finished,named,rfl⟩
  · rintro ⟨before,word,rest,entry,behind,action,reads,noHelp,found,finished,named,rfl⟩
    simp only [parse,reads,if_neg noHelp,found,finished,named]
    rfl

def outputArgument (path : Text) : Text := ['-','-'] ++ Flag.output.long ++ '='::path

theorem outputCluster (path : Text) :
    cluster? front (outputArgument path) = some ⟨[],some (.output,some path)⟩ := by
  have named : (Flag.output.long ++ '='::path).span (· != '=') = (Flag.output.long,'='::path) := by
    have letters : ∀ c ∈ Flag.output.long, (c != '=') = true := List.all_eq_true.mp (by decide)
    rw [List.span_eq_takeWhile_dropWhile,List.takeWhile_append_of_pos letters,
      List.dropWhile_append_of_pos letters]
    simp
  have known : front.flags.find? (·.long == Flag.output.long) = some .output := by decide
  change longCluster? front (Flag.output.long ++ '='::path) = _
  simp only [longCluster?,named,known]
  rfl

theorem readOutput {path : Text} (nonempty : path ≠ []) (arguments : List Text) :
    read front false Given.none (outputArgument path::arguments) =
      read front false (Given.none.withOutput path) arguments := by
  have added : Given.none.addFlag .output path = some (Given.none.withOutput path) := by
    simp [addFlag,Flag.takesValue,Flag.accepts,nonempty,Given.none,withOutput]
  have noCommand : front.commands.contains (outputArgument path) = false := by
    have noHyphen : ∀ word ∈ front.commands, word.head? ≠ some '-' := by decide +kernel
    rw [List.contains_eq_mem,decide_eq_false_iff_not]
    exact fun command => noHyphen _ command rfl
  have noHyphens : (outputArgument path == ['-','-']) = false :=
    beq_eq_false_iff_ne.mpr fun same => List.append_ne_nil_of_right_ne_nil _
      (List.cons_ne_nil _ _) (List.cons.inj (List.cons.inj same).2).2
  rw [read,noCommand,noHyphens,outputCluster]
  simp only [takePlain,added]
  rfl

theorem parseWithOutput {arguments : List Text} {action : Action} {verbose : Bool} {path : Text}
    (parsed : parse arguments = some (.run ⟨action,none,verbose⟩)) (nonempty : path ≠ []) :
    parse (outputArgument path::arguments) =
      some (.run ⟨action,some (Path.ofText path),verbose⟩) := by
  obtain ⟨before,word,rest,entry,behind,_,reads,noHelp,found,finished,named,asked⟩ :=
    parseRun.mp parsed
  injection asked with sameAction noOutput sameVerbose
  subst sameAction
  obtain ⟨noneBehind,noneBefore⟩ := Option.or_eq_none_iff.mp (Option.map_eq_none_iff.mp noOutput.symm)
  have lacks : before.LacksOutput := valueLacks.mp noneBefore
  refine parseRun.mpr ⟨before.withOutput path,word,rest,entry,behind,action,?_,noHelp,found,
    finished,named,?_⟩
  · rw [readOutput nonempty]
    exact readWithOutput path reads lacks
  · simp only [invocation,noneBehind,valueWithOutput lacks,hasWithOutput,sameVerbose]
    rfl

end ProjectSlice.Command
