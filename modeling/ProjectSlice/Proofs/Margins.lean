import Mathlib.Data.List.TakeDrop
import ProjectSlice.Include.Extract
import ProjectSlice.Naming.Declaration
import ProjectSlice.Proofs.Import
import ProjectSlice.Proofs.Steady

/-! Lines with blanks around them. Every pattern is put together from steps that read alike where
texts are alike: most end in a character that is no blank, and the two that may end with the line
take blanks along that no name contains. Main statements: a line with blanks around it shows the same
names in use, is a comment, an include statement or a declaration just as the line itself is. -/
namespace ProjectSlice
open Sequence Text

namespace ReferenceKind

theorem blankNotNameChar {c : Char} (blank : isBlank c = true) : isNameChar c = false :=
  Bool.eq_false_iff.mpr fun part => Bool.noConfusion (blank.symm.trans (nameCharNotBlank part))

theorem keywordSteady {α : Type} {R : α → α → Prop} {f : Text → Option (α × Text)} {word : Text}
    (solid : isSolid word = true) (further : Follows R f) :
    Steady R fun before t => (keyword? word before t).bind f := by
  have shape : (fun before t => (keyword? word before t).bind f) =
      fun before t => if opensWord before then (after? word t).bind f else none := by
    funext before t
    unfold keyword?
    split <;> rfl
  rw [shape]
  exact (Begins.after solid further).steadyAtWord

theorem behindKeywordSteady {word : Text} (solid : isSolid word = true) :
    Steady Eq (behindKeyword word) :=
  keywordSteady solid (.behindBlanks rfl Begins.classWord.follows)

theorem scopeOwnerSteady : Steady Eq scopeOwner :=
  Begins.steadyAtWord (Begins.classWord.bind fun name =>
    (Begins.after (by decide) (.done name)).follows)

theorem parameterTypeSteady : Steady Eq parameterType :=
  Begins.steadyAtWord (Begins.classWord.bind fun name => .behindBlanks rfl
    (.behindOption (by decide) (.behindOption (by decide)
      (Begins.after (by decide) (.done name)).follows)))

def openedList? (t : Text) : Option (Text × Text) :=
  if t.head?.any isWord then none
  else (after? ['('] (t.dropWhile (· != '('))).bind fun t => some (t.span (· != ')'))

/- Without a closing parenthesis the list takes along the blanks at the end of its line. -/
theorem openedListFollows : Follows EndAlike openedList? := by
  have through {mark : Char} (solid : isBlank mark = false) (c : Char) (blank : isBlank c = true) :
      (c != mark) = true := congrArg not (blankNotMark solid blank)
  have spanned : Follows EndAlike fun t => some (t.span (· != ')')) := by
    constructor
    · intro t x rest found
      rw [List.span_eq_takeWhile_dropWhile] at found
      cases found
      exact (List.dropWhile_suffix _).length_le
    · intro t u alike
      rw [List.span_eq_takeWhile_dropWhile,List.span_eq_takeWhile_dropWhile]
      exact .some ⟨alike.takeThrough _,alike.dropThrough (through (by decide))⟩
  have opened : Begins EndAlike fun t => (after? ['('] t).bind fun t => some (t.span (· != ')')) :=
    .after (by decide) spanned
  constructor
  · intro t x rest found
    obtain ⟨_,reads⟩ := Option.ite_none_left_eq_some.mp found
    exact Nat.le_trans (Nat.le_of_lt (opened.shorter reads)) (List.dropWhile_suffix _).length_le
  · intro t u alike
    unfold openedList?
    rw [alike.headAlike fun _ => blankNotWord]
    split
    · exact .none
    · exact opened.alike (alike.dropThrough (through (by decide)))

theorem parameterListSteady : Steady EndAlike parameterList :=
  keywordSteady (by decide) openedListFollows

def listed? (t : Text) : Option (List Text × Text) :=
  match listedNames (t.splitOn ',') with
  | [] => none
  | names => some (names,t)

theorem splitAlike {t u : Text} (alike : EndAlike t u) :
    List.Forall₂ EndAlike (t.splitOn ',') (u.splitOn ',') := by
  induction alike with
  | blank left right =>
    have single {t : Text} (blank : Blank t) : t.splitOn ',' = [t] :=
      List.splitOn_eq_singleton_of_beq_eq_false fun c mem =>
        blankNotMark (by decide) (blank c mem)
    rw [single left,single right]
    exact .cons (.blank left right) .nil
  | @cons c t u rest ih =>
    rw [List.splitOn_cons_eq_if_modifyHead,List.splitOn_cons_eq_if_modifyHead]
    split
    · exact .cons (.blank blankNil blankNil) ih
    · generalize t.splitOn ',' = parts at ih ⊢
      generalize u.splitOn ',' = others at ih ⊢
      cases ih with
      | nil => exact .nil
      | cons first others => exact .cons (.cons c first) others

theorem listedNamesAlike {parts others : List Text} (alike : List.Forall₂ EndAlike parts others) :
    listedNames parts = listedNames others := by
  induction alike with
  | nil => rfl
  | cons first rest ih =>
    have begun := first.dropThrough (p := isBlank) fun _ => id
    obtain ⟨same,behind⟩ := begun.spanSolid fun _ => blankNotNameChar
    simp only [listedNames,trimStart,List.span_eq_takeWhile_dropWhile,same,behind.allBlank,ih]

theorem listedFollows : Follows Eq listed? := by
  constructor
  · intro t x rest found
    unfold listed? at found
    split at found
    · contradiction
    · cases found
      exact Nat.le_refl _
  · intro t u alike
    unfold listed?
    rw [listedNamesAlike (splitAlike alike)]
    split
    · exact .none
    · exact .some ⟨rfl,alike⟩

theorem interfaceListSteady : Steady Eq interfaceList :=
  keywordSteady (by decide) (.behindBlanks rfl listedFollows)

theorem solidQuote {p : Char} (quote : isQuote p = true) : isBlank p = false := by
  rcases Bool.or_eq_true_iff.mp quote with same | same <;>
    rw [eq_of_beq same] <;> decide

/- A word in quotes ends in a quote, behind which all blanks stand. -/
theorem quotedWordFollows : Follows Eq quotedWord? := by
  refine .ofKept fun {t u word rest} alike found => ?_
  obtain ⟨q,p,rfl,opens,closes,own⟩ := quotedWordIff.mp found
  have whole : EndAlike (q::word ++ p::rest) u := alike
  obtain ⟨behind,rfl,same⟩ := whole.keptToSolid (solidQuote closes)
  refine ⟨?_,behind,quotedWordIff.mpr ⟨q,p,rfl,opens,closes,own⟩,same⟩
  simp only [List.length_cons,List.length_append]
  omega

theorem argumentFollows : Follows Eq argument? :=
  .behindTrim (Begins.after (by decide) (.behindTrim quotedWordFollows)).follows

theorem registeredClassSteady : Steady Eq registeredClass :=
  Begins.steadyAnywhere (.after (by decide) argumentFollows)

theorem importedClassSteady : Steady Eq importedClass :=
  Begins.steadyAnywhere (.after (by decide) (argumentFollows.bind fun _ => .behindTrim
    (Begins.after (by decide) (.behindTrim quotedWordFollows)).follows))

variable {front back : Text}

theorem namesEdges (before : Blank front) (behind : Blank back) (line : Text)
    (kind : ReferenceKind) : kind.names (front ++ (line ++ back)) = kind.names line := by
  cases kind with
  | instantiation => exact (behindKeywordSteady (by decide)).searchSame before behind line
  | inheritance =>
    exact congrArg Option.toList ((behindKeywordSteady (by decide)).firstSame before behind line)
  | implementation => rw [names,names,interfaceListSteady.firstSame before behind]
  | staticAccess => rw [names,names,scopeOwnerSteady.searchSame before behind]
  | typeHint =>
    have lists := parameterListSteady.searchEdges before behind line
    rw [names,names]
    generalize search parameterList (front ++ (line ++ back)) = a at lists ⊢
    generalize search parameterList line = b at lists ⊢
    induction lists with
    | nil => rfl
    | cons first rest ih =>
      have same := parameterTypeSteady.searchAlike first
      rw [List.forall₂_eq_eq_eq] at same
      rw [List.flatMap_cons,List.flatMap_cons,same,ih]
  | importing =>
    have used : usedName? (front ++ (line ++ back)) = usedName? line := by
      unfold usedName?
      rw [trimEdges before behind]
    rw [names,names,used,registeredClassSteady.searchSame before behind,
      importedClassSteady.searchSame before behind]

end ReferenceKind

variable {front back : Text}

theorem commentEdges (before : Blank front) (behind : Blank back) (line : Text) :
    isComment (front ++ (line ++ back)) = isComment line := by
  unfold isComment
  rw [trimEdges before behind]

namespace IncludeStatement

theorem readOpens : Opens read := by
  constructor
  · intro a b same
    funext t
    unfold read
    rw [same]
  · intro before c t blank
    have nothing : (c::t).takeWhile isWord = [] :=
      List.takeWhile_cons_of_neg (by simp [blankNotWord blank])
    unfold read spanWord
    rw [nothing]
    exact ite_self none

/- The blanks behind a line stand behind its last semicolon. -/
theorem ofLineEdges (before : Blank front) (behind : Blank back) (line : Text) :
    ofLine? (front ++ (line ++ back)) = ofLine? line := by
  have through {t : Text} (blank : Blank t) : ∀ c ∈ t, (c != ';') = true :=
    fun c mem => congrArg not (blankNotMark (by decide) (blank c mem))
  unfold ofLine?
  rw [dropEndBefore (through before),dropEndBehind (through behind)]
  split
  · rename_i nothing
    rw [nothing]
  · exact readOpens.firstFront before _

end IncludeStatement

namespace Declaration

theorem partsAtBlank {c : Char} (blank : isBlank c = true) (t u : Text) :
    parts (t ++ c::u) = parts t ++ parts u := by
  unfold parts
  rw [List.splitOnP_append_cons t u blank,List.filter_append]

theorem partsBehind (before : Blank front) (t : Text) : parts (front ++ t) = parts t := by
  induction front with
  | nil => rfl
  | cons c front ih =>
    obtain ⟨first,others⟩ := blankTail before
    exact (partsAtBlank first [] _).trans (ih others)

theorem partsEdges (before : Blank front) (behind : Blank back) (line : Text) :
    parts (front ++ (line ++ back)) = parts line := by
  rw [partsBehind before]
  cases back with
  | nil => rw [List.append_nil]
  | cons c back =>
    obtain ⟨first,others⟩ := blankTail behind
    have none : parts (back ++ []) = [] := partsBehind others []
    rw [partsAtBlank first,← List.append_nil back,none,List.append_nil]

end Declaration

end ProjectSlice
