import ProjectSlice.Proofs.Handle
import ProjectSlice.Proofs.IncludeForm
import ProjectSlice.Proofs.Join

/-! Includes behind an anchor. The path of a string is read behind the directory of the application,
as text, or from the including file's directory, as components; a walk that stays inside the root ends
at the same names both ways. Main statement: for a file in the directory of the application, the three
anchors lead to the same target, and to none exactly if the walk ends at the root. -/
namespace ProjectSlice

namespace RelativePath
open Text

/-- How deep below the root a walk ends that begins at a depth, unless it climbs above the root. -/
def depth? : Nat → List Text → Option Nat
  | d,[] => some d
  | d,s::rest =>
    if s = [] ∨ s = ['.'] then depth? d rest
    else if s = ['.','.'] then
      match d with
      | 0 => none
      | d + 1 => depth? d rest
    else depth? (d + 1) rest

theorem walkDepth (standing segments : List Text) :
    (walk standing segments).map List.length = depth? standing.length segments := by
  induction segments generalizing standing with
  | nil => simp [walk,depth?]
  | cons s rest ih =>
    simp only [walk,depth?]
    split
    · exact ih standing
    · split
      · cases standing with
        | nil => rfl
        | cons _ below => exact ih below
      · exact ih (s::standing)

theorem slashAlone {c : Char} (other : '\\' ≠ c) : isSeparator c = (c == '/') := by
  simp [isSeparator,other.symm]

theorem segmentsPlain {t : Text} (plain : '\\' ∉ t) : segments t = t.splitOn '/' := by
  induction t with
  | nil => rfl
  | cons c t ih =>
    simp only [List.mem_cons,not_or] at plain
    have same := slashAlone plain.1
    have rest := ih plain.2
    simp only [segments,List.splitOn_eq_splitOnP] at rest ⊢
    rw [List.splitOnP_cons_eq_if_modifyHead,List.splitOnP_cons_eq_if_modifyHead,rest,same]

theorem dropPlain {t : Text} (plain : '\\' ∉ t) :
    t.dropWhile isSeparator = t.dropWhile (· == '/') := by
  induction t with
  | nil => rfl
  | cons c t ih =>
    simp only [List.mem_cons,not_or] at plain
    rw [List.dropWhile_cons,List.dropWhile_cons,slashAlone plain.1,ih plain.2]

/- Slashes at the beginning open empty segments, which a walk passes over. -/
theorem walkDropped (standing : List Text) (t : Text) :
    walk standing ((t.dropWhile (· == '/')).splitOn '/') = walk standing (t.splitOn '/') := by
  induction t with
  | nil => rfl
  | cons c t ih =>
    by_cases slash : c = '/'
    · subst slash
      simp [List.splitOn_cons_eq_if_modifyHead,walk,ih]
    · simp [slash]

end RelativePath

namespace Path
open RelativePath (walk)

theorem segmentsOfText (t : Text) : segments (ofText t) = (t.splitOn '/').map ofText := by
  have free : ∀ part ∈ (t.splitOn '/').map ofText, slash ∉ part := by
    intro part mem inside
    obtain ⟨text,among,rfl⟩ := List.mem_map.mp mem
    have slashed : '/' ∈ text := Utf8.charOfByte (by decide) inside
    exact absurd (Sequence.splitFree among '/' slashed) (by simp)
  have written : ofText t = [slash].intercalate ((t.splitOn '/').map ofText) := by
    rw [← ofTextJoined,Text.joined,List.intercalate_splitOn]
  have nonempty : (t.splitOn '/').map ofText ≠ [] := by simp [List.splitOn_ne_nil]
  rw [segments,written,List.splitOn_intercalate slash free nonempty]

theorem innerOfText (s : Text) : innerComponent? (ofText s) =
    if s = [] ∨ s = ['.'] then none
    else if s = ['.','.'] then some .up
    else some (.name (ofText s)) := by
  have same (t : Text) : ofText s = ofText t ↔ s = t :=
    ⟨fun written => Utf8.encodeInjective written,congrArg ofText⟩
  have empty : ofText s = [] ↔ s = [] := same []
  have here : ofText s = [dot] ↔ s = ['.'] := same ['.']
  have up : ofText s = [dot,dot] ↔ s = ['.','.'] := same ['.','.']
  simp only [innerComponent?,empty,here,up]

def named (s : Text) : Component := .name (ofText s)

theorem relativeOfText {t : Text} (opening : t.head? ≠ some '/') : isAbsolute (ofText t) = false := by
  cases t with
  | nil => rfl
  | cons c t =>
    have cut : ofText (c::t) = ofText [c] ++ ofText t := Utf8.encodeAppend [c] t
    have nonempty : ofText [c] ≠ [] := fun empty =>
      absurd (Utf8.encodeInjective (t := []) empty) (List.cons_ne_nil c [])
    obtain ⟨b,rest,written⟩ := List.exists_cons_of_ne_nil nonempty
    have other : b ≠ slash := by
      rintro rfl
      have inside : slash ∈ ofText [c] := by simp [written]
      have slashed : '/' ∈ [c] := Utf8.charOfByte (b := slash) (by decide) inside
      exact opening (congrArg some (List.mem_singleton.mp slashed).symm)
    simp [isAbsolute,cut,written,other]

/- A walk over segments that never climbs above its beginning leaves alone what stands below it. -/
theorem foldWalk {standing segments out : List Text} (base : List Component)
    (walked : walk standing segments = some out) :
    ((segments.map ofText).filterMap innerComponent?).foldl cleanStep (standing.map named ++ base) =
      (out.map named).reverse ++ base := by
  induction segments generalizing standing with
  | nil =>
    cases Option.some.inj walked
    simp
  | cons s rest ih =>
    simp only [List.map_cons,List.filterMap_cons,innerOfText]
    unfold walk at walked
    split at walked
    · rename_i stays
      simpa [stays] using ih walked
    · rename_i moves
      split at walked
      · rename_i climbs
        split at walked
        · contradiction
        · rename_i above below
          simpa [climbs,cleanStep,named] using ih walked
      · rename_i enters
        simpa [moves,enters,cleanStep,named] using ih walked

end Path

namespace IncludeSite
open Sequence Text

theorem quotedNeedsQuote {c : Char} (other : isQuote c = false) (t : Text) :
    quoted? (c::t) = none := by
  simp only [quoted?,other,Bool.false_and]
  split <;> rfl

def Appends (t literal : Text) : Prop := ∃ before behind q p,
  t = before ++ '.'::(behind ++ q::(literal ++ [p])) ∧
  Blank before ∧ Blank behind ∧ isQuote q = true ∧ isQuote p = true

namespace Appends

variable {t literal : Text} (appends : Appends t literal)
include appends

theorem appendedRead (nonempty : literal ≠ []) (plain : Uncomputed literal) :
    appended? t = some literal := by
  obtain ⟨before,behind,q,p,rfl,blank,further,opens,closes⟩ := appends
  have dot : trimStart (before ++ '.'::(behind ++ q::(literal ++ [p]))) =
      ['.'] ++ (behind ++ q::(literal ++ [p])) := by
    have solid : isBlank '.' = false := rfl
    simp [trimStart,List.dropWhile_append_of_pos blank,solid]
  have quote : trimStart (behind ++ q::(literal ++ [p])) = q::(literal ++ [p]) := by
    simp [trimStart,List.dropWhile_append_of_pos further,quoteSolid opens]
  simp only [appended?,dot,afterAppend,bind,Option.bind,quote,
    quotedRead nonempty plain opens closes]

/- A quote stands at its end. -/
theorem trimToEnd {c : Char} (solid : isBlank c = false) (front : Text) :
    trim (c::front ++ t) = c::front ++ t := by
  obtain ⟨before,behind,q,p,rfl,_,_,_,closes⟩ := appends
  simpa using trimToQuote solid closes (front ++ (before ++ '.'::(behind ++ q::literal)))

end Appends

def spelled? (names : List Text) : Option Text :=
  if names = [] then none else some (joined ['/'] names)

theorem spelledNone {out : List Text} (named : ∀ name ∈ out, name ≠ []) :
    (spelled? out).getD [] = [] ↔ out = [] := by
  cases out with
  | nil => simp [spelled?]
  | cons first rest =>
    obtain ⟨c,more,same⟩ := List.exists_cons_of_ne_nil (named first List.mem_cons_self)
    have inside : c ∈ joined ['/'] (first::rest) :=
      (partIntercalate List.mem_cons_self).subset (same ▸ List.mem_cons_self)
    simp [spelled?,List.ne_nil_of_mem inside]

section
variable {literal t : Text} {out : List Text}
  (walked : RelativePath.walk ["application".toList] (literal.splitOn '/') = some out)
  (noBackslash : '\\' ∉ literal)
include walked noBackslash

theorem normalizeWalked :
    RelativePath.normalize ("application/".toList ++ literal.dropWhile (· == '/')) =
      spelled? out := by
  have plain : '\\' ∉ "application/".toList ++ literal.dropWhile (· == '/') := by
    simpa using fun mem => noBackslash ((List.dropWhile_suffix _).subset mem)
  have cut : ("application/".toList ++ literal.dropWhile (· == '/')).splitOn '/' =
      "application".toList::(literal.dropWhile (· == '/')).splitOn '/' :=
    List.splitOn_append_cons_self_of_not_mem (by decide : '/' ∉ "application".toList) _
  have entered (rest : List Text) : RelativePath.walk [] ("application".toList::rest) =
      RelativePath.walk ["application".toList] rest := rfl
  rw [RelativePath.normalize,RelativePath.segmentsPlain plain,cut,entered,
    RelativePath.walkDropped,walked]
  cases out <;> rfl

theorem relativeWalked (root : Path) :
    root.clean.relativeTo? ((root.join (Path.ofText "application".toList)).join
      (Path.ofText (literal.dropWhile RelativePath.isSeparator))).clean = spelled? out := by
  have opening : (literal.dropWhile (· == '/')).head? ≠ some '/' := by
    intro first
    have stop := List.head?_dropWhile_not (· == '/') literal
    simp [first] at stop
  have application : Path.components (root.join (Path.ofText "application".toList)).clean =
      Path.components root.clean ++ [Path.named "application".toList] := by
    have own : Path.components (Path.ofText "application".toList) =
        [Path.named "application".toList] := by decide +kernel
    rw [Path.componentsCleanJoin (by decide +kernel),own]
    simp [Path.cleanStep,Path.named]
  have folded := Path.foldWalk (Path.components root.clean).reverse
    ((RelativePath.walkDropped _ literal).trans walked)
  rw [← Path.segmentsOfText,
    Path.foldRelative Path.cleanPasses (Path.relativeOfText opening)] at folded
  have whole : Path.components ((root.join (Path.ofText "application".toList)).join
      (Path.ofText (literal.dropWhile (· == '/')))).clean =
        Path.components root.clean ++ out.map Path.named := by
    rw [Path.componentsCleanJoin (Path.relativeOfText opening),application,List.reverse_append]
    refine (congrArg List.reverse folded).trans ?_
    simp
  have read (s : Text) : Utf8.decodeLossy (Path.named s).bytes = s := Utf8.decodeEncode s
  rw [RelativePath.dropPlain noBackslash,Path.relativeTo?,whole,afterAppend]
  cases out with
  | nil => rfl
  | cons first rest => simp [spelled?,read,Function.comp_def]

end

/-! What each anchor leads to. -/

def IsAnchor (anchor : Text) : Prop :=
  ∃ c rest, anchor = c::rest ∧ isBlank c = false ∧ isQuote c = false

def folderAnchors : List Text := ["__DIR__".toList,"dirname(__FILE__)".toList]

theorem folderAnchored {anchor : Text} (mem : anchor ∈ folderAnchors) (t : Text) :
    IsAnchor anchor ∧ applicationTarget? (anchor ++ t) = none ∧
    (afterDirname? (anchor ++ t)).or (after? "__DIR__".toList (anchor ++ t)) = some t := by
  simp only [folderAnchors,List.mem_cons,List.not_mem_nil,or_false] at mem
  rcases mem with rfl | rfl
  · exact ⟨⟨'_',_,rfl,rfl,rfl⟩,rfl,rfl⟩
  · exact ⟨⟨'d',_,rfl,rfl,rfl⟩,rfl,rfl⟩

section
variable {literal t : Text} (site : IncludeSite) (appends : Appends t literal)
include appends

theorem resolveAnchored {anchor : Text} (is : IsAnchor anchor) : site.resolve (anchor ++ t) =
    ((applicationTarget? (anchor ++ t)).or (folderTarget? site (anchor ++ t))).getD [] := by
  obtain ⟨c,rest,rfl,solid,begins⟩ := is
  have unread : quoted? (c::rest ++ t) = none := quotedNeedsQuote begins (rest ++ t)
  have alone : literalTarget? site (c::rest ++ t) = none := by
    rw [literalTarget?,unread]
    rfl
  rw [resolve,target?,appends.trimToEnd solid,alone,Option.or_none]

variable (nonempty : literal ≠ []) (plain : Uncomputed literal)
include nonempty plain

theorem applicationResolved : site.resolve ("APPLICATION_PATH".toList ++ t) =
    (RelativePath.normalize ("application/".toList ++ literal.dropWhile (· == '/'))).getD [] := by
  have is : IsAnchor "APPLICATION_PATH".toList := ⟨'A',_,rfl,rfl,rfl⟩
  have folder : folderTarget? site ("APPLICATION_PATH".toList ++ t) = none := rfl
  rw [resolveAnchored site appends is,folder,Option.or_none,applicationTarget?,
    afterAppend,Option.bind_eq_bind,Option.bind_some,appends.appendedRead nonempty plain,
    Option.bind_some]

theorem folderResolved {anchor : Text} (mem : anchor ∈ folderAnchors) : site.resolve (anchor ++ t) =
    (site.root.clean.relativeTo? (site.folder.join
      (Path.ofText (literal.dropWhile RelativePath.isSeparator))).clean).getD [] := by
  obtain ⟨is,apart,reads⟩ := folderAnchored mem t
  rw [resolveAnchored site appends is,apart,Option.none_or,folderTarget?,reads,
    Option.bind_eq_bind,Option.bind_some,appends.appendedRead nonempty plain,
    Option.bind_some]

end

/-- For a file in the directory of the application, a string whose walk stays inside the root has one
target behind all three anchors, however the blanks and quotes stand; it is empty exactly if the walk
ends at the root. The anchor of the application says the same from anywhere. -/
theorem anchorsAgree (root : Path) {literal : Text} (nonempty : literal ≠ [])
    (plain : Uncomputed literal) (noBackslash : '\\' ∉ literal) {depth : Nat}
    (inside : RelativePath.depth? 1 (literal.splitOn '/') = some depth) {a b c : Text}
    (application : Appends a literal) (folder : Appends b literal) (dirname : Appends c literal)
    (anywhere : IncludeSite) (isFile : Path → Bool) :
    let site : IncludeSite := ⟨root.join (Path.ofText "application".toList),root,isFile⟩
    let target := anywhere.resolve ("APPLICATION_PATH".toList ++ a)
    site.resolve ("__DIR__".toList ++ b) = target ∧
    site.resolve ("dirname(__FILE__)".toList ++ c) = target ∧ (target = [] ↔ depth = 0) := by
  intro site target
  have walks := RelativePath.walkDepth ["application".toList] (literal.splitOn '/')
  rw [List.length_singleton,inside] at walks
  obtain ⟨out,walked,rfl⟩ := Option.map_eq_some_iff.mp walks
  have names : ∀ name ∈ out, name ≠ [] := by
    have free : ∀ segment ∈ literal.splitOn '/', ∀ c ∈ segment, RelativePath.isSeparator c = false :=
      RelativePath.segmentsPlain noBackslash ▸ fun _ => splitFree
    have entered : ∀ segment ∈ ["application".toList], RelativePath.IsPlain segment := by
      simp only [List.mem_singleton,forall_eq,RelativePath.plainIff,RelativePath.IsName]
      decide
    exact fun name mem => (RelativePath.walkNames entered free walked name mem).1.1
  have same : target = (spelled? out).getD [] := by
    simp only [target,applicationResolved anywhere application nonempty plain,
      normalizeWalked walked noBackslash]
  have below {anchor t : Text} (mem : anchor ∈ folderAnchors) (appends : Appends t literal) :
      site.resolve (anchor ++ t) = target := by
    rw [folderResolved site appends nonempty plain mem,same]
    exact congrArg (·.getD []) (relativeWalked walked noBackslash root)
  refine ⟨below (by decide) folder,below (by decide) dirname,?_⟩
  rw [same,spelledNone names,List.length_eq_zero_iff]

/- A root that lies outside its base, dots and repeated slashes in the string, and three ways to write
the dot and the quotes; one more `..` leads to the root. -/
theorem cartAgreed :
    let root := Path.ofText "../shop".toList
    let cart := "/../lib//./cart.php".toList
    let a := " . '/../lib//./cart.php'".toList
    let b := ".\"/../lib//./cart.php\"".toList
    let c := "\t.  '/../lib//./cart.php\"".toList
    let anywhere : IncludeSite := ⟨[],root,fun _ => false⟩
    let site : IncludeSite := ⟨root.join (Path.ofText "application".toList),root,fun _ => false⟩
    (cart ≠ [] ∧ Uncomputed cart ∧ '\\' ∉ cart) ∧
    RelativePath.depth? 1 (cart.splitOn '/') = some 2 ∧
    (Appends a cart ∧ Appends b cart ∧ Appends c cart) ∧
    anywhere.resolve ("APPLICATION_PATH".toList ++ a) = "lib/cart.php".toList ∧
    site.resolve ("__DIR__".toList ++ b) = "lib/cart.php".toList ∧
    site.resolve ("dirname(__FILE__)".toList ++ c) = "lib/cart.php".toList ∧
    RelativePath.depth? 1 ("..".toList.splitOn '/') = some 0 ∧
    site.resolve "__DIR__ . '..'".toList = [] := by
  intro root cart a b c anywhere site
  have plain : Uncomputed cart := by decide
  have literal : cart ≠ [] ∧ Uncomputed cart ∧ '\\' ∉ cart := ⟨by decide,plain,by decide⟩
  have inside : RelativePath.depth? 1 (cart.splitOn '/') = some 2 := by decide +kernel
  have first : Appends a cart := ⟨[' '],[' '],'\x27','\x27',rfl,by decide,by decide,rfl,rfl⟩
  have second : Appends b cart := ⟨[],[],'\x22','\x22',rfl,by decide,by decide,rfl,rfl⟩
  have third : Appends c cart := ⟨['\t'],[' ',' '],'\x27','\x22',rfl,by decide,by decide,rfl,rfl⟩
  have target : anywhere.resolve ("APPLICATION_PATH".toList ++ a) = "lib/cart.php".toList := by
    decide +kernel
  obtain ⟨folder,dirname,_⟩ := anchorsAgree root literal.1 plain literal.2.2 inside first second third
    anywhere fun _ => false
  exact ⟨literal,inside,⟨first,second,third⟩,target,folder.trans target,dirname.trans target,
    by decide +kernel,by decide +kernel⟩

end IncludeSite
end ProjectSlice
