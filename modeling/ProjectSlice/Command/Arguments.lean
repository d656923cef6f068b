import ProjectSlice.Naming.Framework
import ProjectSlice.Path

/-! The arguments of the command line. Options stand before or behind the command word; a value
stands behind its option, in the next argument or attached. Two hyphens alone make everything
behind them plain words. Every option but the mapping is given at most once on either side of the
command word, and the choice behind the word stands over the one before it. Arguments that break a
rule are rejected as a whole. -/
namespace ProjectSlice.Command
open Sequence

inductive OutputFormat where
  | json
  | jsonCompact
  | manifest
  deriving DecidableEq, Repr

def OutputFormat.ofWord? (t : Text) : Option OutputFormat :=
  if t = "json".toList then some .json
  else if t = "json-compact".toList then some .jsonCompact
  else if t = "manifest".toList then some .manifest
  else none

structure ProjectChoice where
  framework : Option Framework
  mappings : List Text
  config : Option Path
  deriving DecidableEq, Repr

inductive Action where
  | scan (root : Path) (choice : ProjectChoice) (format : OutputFormat)
  | analyze (root : Path) (files : List Text) (includes : Bool) (choice : ProjectChoice)
      (format : OutputFormat)
  | references (file : Path)
  | includes (file root : Path)
  deriving DecidableEq, Repr

structure Invocation where
  action : Action
  output : Option Path
  verbose : Bool
  deriving DecidableEq, Repr

inductive Request where
  | run (invocation : Invocation)
  | version
  | help
  deriving DecidableEq, Repr

inductive Flag where
  | output
  | verbose
  | framework
  | mapping
  | config
  | format
  | includes
  | root
  | version
  | help
  deriving DecidableEq, Repr

namespace Flag

def takesValue : Flag → Bool
  | .verbose | .includes | .version | .help => false
  | _ => true

def long : Flag → Text
  | .output => "output".toList
  | .verbose => "verbose".toList
  | .framework => "framework".toList
  | .mapping => "mapping".toList
  | .config => "config".toList
  | .format => "format".toList
  | .includes => "includes".toList
  | .root => "root".toList
  | .version => "version".toList
  | .help => "help".toList

def short? : Flag → Option Char
  | .output => some 'o'
  | .verbose => some 'v'
  | .mapping => some 'm'
  | .config => some 'c'
  | .format => some 'f'
  | .root => some 'r'
  | .version => some 'V'
  | .help => some 'h'
  | .framework | .includes => none

def accepts : Flag → Text → Bool
  | .framework,t => (Framework.ofWord? t).isSome
  | .format,t => (OutputFormat.ofWord? t).isSome
  | .mapping,_ => true
  | _,t => t != []

end Flag

structure Side where
  flags : List Flag
  words : Option Nat
  commands : List Text
  deriving DecidableEq, Repr

structure Given where
  flags : List (Flag × Text)
  words : List Text
  deriving DecidableEq, Repr

namespace Given

def none : Given := ⟨[],[]⟩

def addFlag (given : Given) (flag : Flag) (value : Text) : Option Given :=
  if flag.takesValue && !flag.accepts value then .none
  else if flag ≠ .mapping ∧ given.flags.any (·.1 == flag) then .none
  else some ⟨(flag,value)::given.flags,given.words⟩

/-- One more word, if the side allows it. The first word of a side is a path, and no path is
empty. -/
def addWord (side : Side) (given : Given) (word : Text) : Option Given :=
  if side.words.any (· ≤ given.words.length) then .none
  else if given.words = [] ∧ word = [] then .none
  else some ⟨given.flags,word::given.words⟩

def value? (given : Given) (flag : Flag) : Option Text :=
  (given.flags.find? (·.1 == flag)).map Prod.snd

def values (given : Given) (flag : Flag) : List Text :=
  ((given.flags.filter (·.1 == flag)).map Prod.snd).reverse

def has (given : Given) (flag : Flag) : Bool := given.flags.any (·.1 == flag)

def wordsInOrder (given : Given) : List Text := given.words.reverse

end Given

inductive Reading where
  | finished (given : Given)
  | command (given : Given) (word : Text) (rest : List Text)
  | stopped (request : Request)
  | rejected
  deriving DecidableEq, Repr

structure Cluster where
  plain : List Flag
  valued : Option (Flag × Option Text)
  deriving DecidableEq, Repr

def longCluster? (side : Side) (t : Text) : Option Cluster :=
  let (name,attached) := t.span (· != '=')
  match side.flags.find? fun flag => flag.long == name with
  | none => none
  | some flag =>
    match attached with
    | [] => if flag.takesValue then some ⟨[],some (flag,none)⟩ else some ⟨[flag],none⟩
    | _::value => if flag.takesValue then some ⟨[],some (flag,some value)⟩ else none

/-- The flags that some letters name; what follows a flag with a value is the value, an equals sign
in between left out. Nothing is read behind a flag that asks for a text about the program. -/
def shortCluster? (side : Side) : Text → Option Cluster
  | [] => some ⟨[],none⟩
  | letter::rest =>
    match side.flags.find? fun flag => flag.short? == some letter with
    | none => none
    | some flag =>
      if flag.takesValue then
        some ⟨[],some (flag,match rest with
          | [] => none
          | '='::value => some value
          | value => some value)⟩
      else if flag = .version ∨ flag = .help then some ⟨[flag],none⟩
      else (shortCluster? side rest).map fun c => ⟨flag::c.plain,c.valued⟩

def cluster? (side : Side) : Text → Option Cluster
  | '-' :: '-' :: t => longCluster? side t
  | '-'::t => shortCluster? side t
  | _ => none

def isFlagArgument : Text → Bool
  | '-'::_::_ => true
  | _ => false

/-- Flags without value, taken in order; the first that asks for a text about the program itself
ends the reading. -/
def takePlain (given : Given) : List Flag → Except Reading Given
  | [] => .ok given
  | .version::_ => .error (.stopped .version)
  | .help::_ => .error (.stopped .help)
  | flag::flags =>
    match given.addFlag flag [] with
    | some given => takePlain given flags
    | none => .error .rejected

def read (side : Side) : (onlyWords : Bool) → Given → List Text → Reading
  | _,given,[] => .finished given
  | onlyWords,given,argument::rest =>
    if !onlyWords && side.commands.contains argument then .command given argument rest
    else if !onlyWords && argument == ['-','-'] then read side true given rest
    else if onlyWords || !isFlagArgument argument then
      match given.addWord side argument with
      | some given => read side onlyWords given rest
      | none => .rejected
    else
      match cluster? side argument with
      | none => .rejected
      | some ⟨plain,valued⟩ =>
        match takePlain given plain with
        | .error reading => reading
        | .ok given =>
          match valued with
          | none => read side false given rest
          | some (flag,some value) =>
            match given.addFlag flag value with
            | some given => read side false given rest
            | none => .rejected
          | some (flag,none) =>
            match rest with
            | [] => .rejected
            | value::rest =>
              if isFlagArgument value then .rejected
              else
                match given.addFlag flag value with
                | some given => read side false given rest
                | none => .rejected

def commonFlags : List Flag := [.output,.verbose,.help]

def projectFlags : List Flag := [.framework,.mapping,.config,.format]

def sides : List (Text × Side) := [
  ("scan".toList,⟨commonFlags ++ projectFlags,some 1,[]⟩),
  ("analyze".toList,⟨commonFlags ++ projectFlags ++ [.includes],none,[]⟩),
  ("refs".toList,⟨commonFlags,some 1,[]⟩),
  ("includes".toList,⟨commonFlags ++ [.root],some 1,[]⟩)]

def helpWord : Text := "help".toList

def front : Side := ⟨commonFlags ++ [.version],some 0,helpWord::sides.map Prod.fst⟩

def projectChoice (given : Given) : ProjectChoice :=
  ⟨(given.value? .framework).bind Framework.ofWord?,given.values .mapping,
    (given.value? .config).map Path.ofText⟩

def outputFormat (given : Given) : OutputFormat :=
  ((given.value? .format).bind OutputFormat.ofWord?).getD .json

def action? (word : Text) (given : Given) : Option Action :=
  match given.wordsInOrder with
  | [] => none
  | first::rest => do
    let path := Path.ofText first
    if word = "scan".toList then some (.scan path (projectChoice given) (outputFormat given))
    else if word = "analyze".toList then
      if rest = [] then none
      else some (.analyze path rest (given.has .includes) (projectChoice given) (outputFormat given))
    else if word = "refs".toList then some (.references path)
    else if word = "includes".toList then some (.includes path (Path.ofText (← given.value? .root)))
    else none

def helpRequest (rest : List Text) : Option Request :=
  match rest with
  | [] => some .help
  | [word] => if front.commands.contains word then some .help else none
  | _ => none

def parse (arguments : List Text) : Option Request :=
  match read front false Given.none arguments with
  | .stopped request => some request
  | .finished _ | .rejected => none
  | .command before word rest =>
    if word = helpWord then helpRequest rest
    else
      match sides.find? (·.1 == word) with
      | none => none
      | some (_,side) =>
        match read side false Given.none rest with
        | .stopped request => some request
        | .command _ _ _ | .rejected => none
        | .finished behind => do
          let action ← action? word behind
          let output := (behind.value? .output).or (before.value? .output)
          some (.run ⟨action,output.map Path.ofText,behind.has .verbose || before.has .verbose⟩)

end ProjectSlice.Command
