import ProjectSlice.Proofs.IncludeForm
import ProjectSlice.Proofs.Margins

/-! Statements in a line. A line shows the first statement in it and nothing behind the semicolon of
this one; the closing parenthesis in front of the semicolon is taken for the statement's own, whether
or not the statement has opened one. Main statements: an expression in parentheses of the statement is
shown as it is, one without them unless it ends in a closing parenthesis; of a line of statements that
include one string each, the first alone is shown. -/
namespace ProjectSlice

namespace IncludeStatement
open Sequence Text
open IncludeSite (isQuote)

theorem keywordWord (keyword : IncludeKeyword) :
    ∃ c word, keyword.word = c::word ∧ ∀ d ∈ keyword.word, isWord d = true := by
  have all : keyword.word.all isWord = true := by cases keyword <;> decide +kernel
  cases keyword <;> exact ⟨_,_,rfl,List.all_eq_true.mp all⟩

theorem expressionBegins {t inner rest : Text} {c : Char}
    (begins : beginning t = c::(inner ++ ';'::rest)) (unended : ';' ∉ inner) :
    expressionBehind? t = some (c::withoutClosing inner) := by
  have inside : ∀ d ∈ inner, (d != ';') = true := by
    intro d mem
    simpa using fun same : d = ';' => unended (same ▸ mem)
  simp [expressionBehind?,begins,expression?,List.takeWhile_append_of_pos inside]

theorem readKeyword (keyword : IncludeKeyword) {t : Text} (apart : t.head?.any isWord = false) :
    read none (keyword.word ++ t) =
      (expressionBehind? t).map fun expression => (⟨keyword,trim expression⟩,t) := by
  obtain ⟨_,_,_,all⟩ := keywordWord keyword
  simp [read,opensWord,spanWordAppend all apart,IncludeKeyword.ofWordOfWord]

/- Blanks, a keyword, and a text in which an expression begins: the line shows this statement,
whatever stands behind the semicolon. -/
theorem ofLineBegins {front body inner : Text} {c : Char} (blank : Blank front)
    (keyword : IncludeKeyword) (apart : body.head?.any isWord = false)
    (begins : ∀ rest, beginning (body ++ ';'::rest) = c::(inner ++ ';'::rest))
    (unended : ';' ∉ inner) (rest : Text) :
    ofLine? (front ++ (keyword.word ++ (body ++ ';'::rest))) =
      some ⟨keyword,trim (c::withoutClosing inner)⟩ := by
  obtain ⟨d,word,same,_⟩ := keywordWord keyword
  have apart (rest : Text) : (body ++ ';'::rest).head?.any isWord = false := by
    cases body with
    | nil => rfl
    | cons b body => exact apart
  have cut : dropEndWhile (· != ';') (front ++ (keyword.word ++ (body ++ ';'::rest))) =
      front ++ (keyword.word ++ (body ++ ';'::dropEndWhile (· != ';') rest)) := by
    simpa using dropEndStop (p := (· != ';')) rfl (front ++ (keyword.word ++ body)) rest
  have reads := readKeyword keyword (apart (dropEndWhile (· != ';') rest))
  rw [expressionBegins (begins _) unended,same] at reads
  rw [ofLine?,cut,readOpens.firstFront blank,same]
  exact firstHere reads

theorem trimmedHead {e : Text} (nonempty : e ≠ []) (trimmed : trim e = e) :
    ∃ c t, e = c::t ∧ isBlank c = false ∧ trimEnd t = t := by
  obtain ⟨c,t,rfl⟩ := List.exists_cons_of_ne_nil nonempty
  have whole : trimStart (c::t) = c::t := by
    have kept := (dropEndPrefix isBlank (trimStart (c::t))).length_le
    have same : dropEndWhile isBlank (trimStart (c::t)) = c::t := trimmed
    rw [same] at kept
    exact (List.dropWhile_suffix isBlank).eq_of_length_le kept
  have solid : isBlank c = false := by simpa [trimStart] using whole
  rw [trimSolidHead solid] at trimmed
  exact ⟨c,t,rfl,solid,(List.cons.inj trimmed).2⟩

theorem withoutClosingBlank {behind : Text} (blank : Blank behind) (t : Text) :
    withoutClosing (t ++ behind) = withoutClosing t := by
  have same : trimEnd (t ++ behind) = trimEnd t := dropEndBehind blank t
  simp [withoutClosing,same]

theorem withoutClosingClosed {behind : Text} (blank : Blank behind) (t : Text) :
    withoutClosing (t ++ (behind ++ [')'])) = trimEnd t := by
  have closed : trimEnd (t ++ behind ++ [')']) = t ++ behind ++ [')'] := dropEndLast _ rfl _
  have same : trimEnd (t ++ behind) = trimEnd t := dropEndBehind blank t
  rw [← List.append_assoc]
  simp only [withoutClosing,closed,List.getLast?_concat,List.dropLast_concat,if_true,same]

theorem beginningBare {before : Text} (blank : Blank before) {c : Char} (solid : isBlank c = false)
    (opening : c ≠ '(') (t : Text) : beginning (before ++ c::t) = c::t := by
  have whole : trimStart (before ++ c::t) = c::t := by
    simp [trimStart,List.dropWhile_append_of_pos blank,solid]
  unfold beginning
  rw [whole]
  split
  · simp_all
  · rfl

theorem beginningCalled {before : Text} (blank : Blank before) {c : Char} (solid : isBlank c = false)
    (t : Text) : beginning ('('::(before ++ c::t)) = c::t := by
  have opened : isBlank '(' = false := rfl
  simp [beginning,trimStart,opened,List.dropWhile_append_of_pos blank,solid]

structure IsExpression (e : Text) : Prop where
  nonempty : e ≠ []
  trimmed : trim e = e
  unended : ';' ∉ e
instance (e : Text) : Decidable (IsExpression e) :=
  decidable_of_iff (e ≠ [] ∧ trim e = e ∧ ';' ∉ e)
    ⟨fun ⟨nonempty,trimmed,unended⟩ => ⟨nonempty,trimmed,unended⟩,
      fun is => ⟨is.nonempty,is.trimmed,is.unended⟩⟩

/-- What is left of an expression when a closing parenthesis at its end is taken for the
statement's own. -/
def cutShort (e : Text) : Text := if e.getLast? = some ')' then trimEnd e.dropLast else e

theorem cutShortIff {e : Text} : cutShort e = e ↔ e.getLast? ≠ some ')' := by
  unfold cutShort
  split
  · rename_i closed
    have shorter : (trimEnd e.dropLast).length ≤ e.dropLast.length := (dropEndPrefix _ _).length_le
    have other : trimEnd e.dropLast ≠ e := by
      intro same
      have nonempty : e.length ≠ 0 := by
        intro empty
        simp [List.eq_nil_of_length_eq_zero empty] at closed
      rw [same,List.length_dropLast] at shorter
      omega
    simp [other,closed]
  · simp_all

theorem closingCut {c : Char} {t : Text} (solid : isBlank c = false) (ends : trimEnd t = t)
    (other : c::t ≠ [')']) : trim (c::withoutClosing t) = cutShort (c::t) := by
  rw [trimSolidHead solid]
  cases t with
  | nil => simp_all [cutShort,withoutClosing,trimEnd,dropEndWhile]
  | cons d t =>
    have kept : trimEnd (c::d::t).dropLast = c::trimEnd (d::t).dropLast := dropEndStop solid [] _
    have again (u : Text) : trimEnd (trimEnd u) = trimEnd u := by
      obtain ⟨back,whole,blank⟩ := dropEndInside isBlank u
      exact ((congrArg trimEnd whole).trans (dropEndBehind blank _)).symm
    simp only [withoutClosing,cutShort,ends,List.getLast?_cons_cons]
    split
    · rw [kept,again]
    · rw [ends]

structure Spacing where
  front : Text
  before : Text
  behind : Text
  blank : Blank front ∧ Blank before ∧ Blank behind

namespace Spacing

def bare (s : Spacing) (keyword : IncludeKeyword) (e rest : Text) : Text :=
  s.front ++ (keyword.word ++ (s.before ++ (e ++ s.behind) ++ ';'::rest))

def called (s : Spacing) (keyword : IncludeKeyword) (e rest : Text) : Text :=
  s.front ++ (keyword.word ++ ('('::(s.before ++ (e ++ (s.behind ++ [')']))) ++ ';'::rest))

theorem ofBare (s : Spacing) (apart : s.before ≠ []) (keyword : IncludeKeyword) {e : Text}
    (is : IsExpression e) (opening : e.head? ≠ some '(') (closing : e ≠ [')']) (rest : Text) :
    ofLine? (s.bare keyword e rest) = some ⟨keyword,cutShort e⟩ := by
  obtain ⟨front,before,behind⟩ := s.blank
  obtain ⟨c,t,rfl,solid,ends⟩ := trimmedHead is.nonempty is.trimmed
  have unended : ';' ∉ t ++ s.behind := by
    have free : ';' ∉ s.behind := fun mem => Bool.noConfusion (behind _ mem)
    have inside := is.unended
    simp_all
  have stop : (s.before ++ (c::t ++ s.behind)).head?.any isWord = false := by
    obtain ⟨d,more,same⟩ := List.exists_cons_of_ne_nil apart
    rw [same] at before ⊢
    exact blankNotWord (before d List.mem_cons_self)
  have begins (rest : Text) : beginning (s.before ++ (c::t ++ s.behind) ++ ';'::rest) =
      c::(t ++ s.behind ++ ';'::rest) := by
    simpa using beginningBare before solid (by simpa using opening) (t ++ s.behind ++ ';'::rest)
  refine (ofLineBegins front keyword stop begins unended rest).trans ?_
  rw [withoutClosingBlank behind,closingCut solid ends closing]

theorem ofCalled (s : Spacing) (keyword : IncludeKeyword) {e : Text} (is : IsExpression e)
    (rest : Text) : ofLine? (s.called keyword e rest) = some ⟨keyword,e⟩ := by
  obtain ⟨front,before,behind⟩ := s.blank
  obtain ⟨c,t,rfl,solid,ends⟩ := trimmedHead is.nonempty is.trimmed
  have unended : ';' ∉ t ++ (s.behind ++ [')']) := by
    have free : ';' ∉ s.behind := fun mem => Bool.noConfusion (behind _ mem)
    have inside := is.unended
    simp_all
  have begins (rest : Text) :
      beginning ('('::(s.before ++ (c::t ++ (s.behind ++ [')']))) ++ ';'::rest) =
        c::(t ++ (s.behind ++ [')']) ++ ';'::rest) := by
    simpa using beginningCalled before solid (t ++ (s.behind ++ [')']) ++ ';'::rest)
  refine (ofLineBegins front keyword rfl begins unended rest).trans ?_
  rw [withoutClosingClosed behind,ends,trimSolidHead solid,ends]

end Spacing

/-- How many parentheses stand open behind a text, unless one closes that none has opened. -/
def openBehind? : Nat → Text → Option Nat
  | n,[] => some n
  | n,c::t =>
    if c = '(' then openBehind? (n + 1) t
    else if c = ')' then
      match n with
      | 0 => none
      | n + 1 => openBehind? n t
    else openBehind? n t

structure Quoted where
  keyword : IncludeKeyword
  spacing : Spacing
  opens : Char
  literal : Text
  closes : Char
  apart : spacing.before ≠ []
  quotes : isQuote opens = true ∧ isQuote closes = true
  unended : ';' ∉ literal

namespace Quoted

def expression (s : Quoted) : Text := s.opens::(s.literal ++ [s.closes])

def onto (s : Quoted) (rest : Text) : Text := s.spacing.bare s.keyword s.expression rest

end Quoted
end IncludeStatement

namespace Include
open Text

theorem wordNoComment {front : Text} (blank : Blank front) (keyword : IncludeKeyword) (t : Text) :
    isComment (front ++ (keyword.word ++ t)) = false := by
  obtain ⟨c,word,same,all⟩ := IncludeStatement.keywordWord keyword
  have first : isWord c = true := all c (same ▸ List.mem_cons_self)
  have edges := commentEdges blank blankNil (keyword.word ++ t)
  have trimmed := trimSolidHead (wordNotBlank first) (word ++ t)
  have other (mark : Char) (none : isWord mark = false) : (mark == c) = false := by
    simp only [beq_eq_false_iff_ne]
    intro same
    simp [same,first] at none
  rw [List.append_nil] at edges
  rw [edges]
  simp [isComment,same,trimmed,List.isPrefixOf,other '/' rfl,other '*' rfl]

theorem numberedAt (site : IncludeSite) {ls : List Text} {line : Text} {n : Nat}
    (there : ls[n]? = some line) (first : Nat) :
    ((ls.zipIdx first).filterMap (ofLine? site)).filter (·.line = n + first) =
      (ofLine? site (line,n + first)).toList := by
  have later (ls : List Text) {m k : Nat} (behind : k < m) :
      ((ls.zipIdx m).filterMap (ofLine? site)).filter (·.line = k) = [] := by
    simp only [List.filter_eq_nil_iff,decide_eq_true_eq]
    intro i mem same
    obtain ⟨l,among,shown⟩ := List.mem_filterMap.mp mem
    have place := List.le_snd_of_mem_zipIdx among
    have number := lineOfShown shown
    omega
  induction ls generalizing n first with
  | nil => simp at there
  | cons l ls ih =>
    rw [List.zipIdx_cons,List.filterMap_cons]
    cases n with
    | zero =>
      obtain rfl : l = line := by simpa using there
      have none := later ls (Nat.lt_succ_self first)
      rw [Nat.zero_add]
      cases shown : ofLine? site (l,first) with
      | none => simpa using none
      | some i => simp [lineOfShown shown,none]
    | succ n =>
      have rest := ih (by simpa using there) (first + 1)
      have number : n + (first + 1) = n + 1 + first := by omega
      rw [number] at rest
      cases shown : ofLine? site (l,first) with
      | none => exact rest
      | some i =>
        have other : i.line ≠ n + 1 + first := by
          have own := lineOfShown shown
          simp only at own
          omega
        simp [other,rest]

theorem extractAt (site : IncludeSite) {source line : Text} {n : Nat}
    (there : (lines source)[n]? = some line) :
    (extract site source).filter (·.line = n + 1) = (ofLine? site (line,n + 1)).toList :=
  numberedAt site there 1

end Include

namespace IncludeStatement
open Text
open IncludeSite (quoteSolid quoteNotMark)

def found (site : IncludeSite) (line : Nat) (s : IncludeStatement) : Include :=
  ⟨s.keyword,s.expression,site.resolve s.expression,line⟩

theorem foundAt (site : IncludeSite) {source front t : Text} {n : Nat} (blank : Blank front)
    {keyword : IncludeKeyword} {s : IncludeStatement}
    (there : (lines source)[n]? = some (front ++ (keyword.word ++ t)))
    (shown : ofLine? (front ++ (keyword.word ++ t)) = some s) :
    (Include.extract site source).filter (·.line = n + 1) = [s.found site (n + 1)] := by
  simp [Include.extractAt site there,Include.ofLine?,Include.wordNoComment blank,shown,found]

/-- A statement that has its expression in parentheses shows the expression as it is; one that has
not shows it as far as it reaches when a closing parenthesis at its end is the statement's own, which
is the whole expression exactly if none stands there. Both are the one include of their line. -/
theorem expressionShown (site : IncludeSite) (s : Spacing) (keyword : IncludeKeyword) {e : Text}
    (is : IsExpression e) (balanced : openBehind? 0 e = some 0) (opening : e.head? ≠ some '(')
    (source rest : Text) (n : Nat) :
    let shown := (Include.extract site source).filter (·.line = n + 1)
    ((lines source)[n]? = some (s.called keyword e rest) →
      shown = [found site (n + 1) ⟨keyword,e⟩]) ∧
    (s.before ≠ [] → (lines source)[n]? = some (s.bare keyword e rest) →
      shown = [found site (n + 1) ⟨keyword,cutShort e⟩] ∧
      (shown = [found site (n + 1) ⟨keyword,e⟩] ↔ e.getLast? ≠ some ')')) := by
  have closing : e ≠ [')'] := by
    rintro rfl
    contradiction
  refine ⟨fun there => foundAt site s.blank.1 there (s.ofCalled keyword is rest),?_⟩
  intro apart there
  have shown := foundAt site s.blank.1 there (s.ofBare apart keyword is opening closing rest)
  refine ⟨shown,?_⟩
  rw [shown,← cutShortIff]
  simp only [found,List.cons.injEq,Include.mk.injEq]
  constructor
  · exact fun same => same.1.2.1
  · intro same
    simp [same]

/- A call in the parentheses of its statement, an expression without them, and the same call without
them, of which the last parenthesis is lost. -/
theorem portalShown :
    let call := "f($x)".toList
    let view := "$base . '/x.php'".toList
    let source := "<?php\n\trequire_once( f($x) ); // once\n  include  $base . '/x.php' ;\nrequire f($x);\n"
    let site : IncludeSite := ⟨Path.ofText "/srv/app".toList,Path.ofText "/srv".toList,fun _ => false⟩
    let shown (line : Nat) := (Include.extract site source.toList).filter (·.line = line)
    (IsExpression call ∧ openBehind? 0 call = some 0 ∧ call.head? ≠ some '(') ∧
    (IsExpression view ∧ openBehind? 0 view = some 0 ∧ view.head? ≠ some '(') ∧
    shown 2 = [⟨.requireOnce,call,[],2⟩] ∧ shown 3 = [⟨.include,view,[],3⟩] ∧
    shown 4 = [⟨.require,"f($x".toList,[],4⟩] := by
  intro call view source site shown
  have callFits : IsExpression call ∧ openBehind? 0 call = some 0 ∧ call.head? ≠ some '(' := by
    decide +kernel
  have viewFits : IsExpression view ∧ openBehind? 0 view = some 0 ∧ view.head? ≠ some '(' := by
    decide +kernel
  let tab : Spacing := ⟨['\t'],[' '],[' '],by decide⟩
  let wide : Spacing := ⟨[' ',' '],[' ',' '],[' '],by decide⟩
  let plain : Spacing := ⟨[],[' '],[],by decide⟩
  have second := (expressionShown site tab .requireOnce callFits.1 callFits.2.1 callFits.2.2
    source.toList " // once".toList 1).1 (by decide +kernel)
  have third := (expressionShown site wide .include viewFits.1 viewFits.2.1 viewFits.2.2
    source.toList [] 2).2 (by decide) (by decide +kernel)
  have fourth := (expressionShown site plain .require callFits.1 callFits.2.1 callFits.2.2
    source.toList [] 3).2 (by decide) (by decide +kernel)
  have callUnresolved : site.resolve call = [] := by decide +kernel
  have viewUnresolved : site.resolve view = [] := by decide +kernel
  refine ⟨callFits,viewFits,?_,?_,?_⟩
  · simpa [found,callUnresolved] using second
  · simpa [found,viewUnresolved] using third.2.mpr (by decide)
  · exact fourth.1.trans (by decide +kernel)

/- A call that ends its expression, without parentheses of the statement. -/
theorem callCutShort :
    let call := "f($x)".toList
    let site : IncludeSite := ⟨Path.ofText "/srv/app".toList,Path.ofText "/srv".toList,fun _ => false⟩
    IsExpression call ∧ openBehind? 0 call = some 0 ∧ call.head? ≠ some '(' ∧
    Include.extract site ("require ".toList ++ call ++ [';']) =
      [⟨.require,"f($x".toList,[],1⟩] ∧ "f($x".toList ≠ call := by decide +kernel

namespace Quoted

theorem isExpression (s : Quoted) : IsExpression s.expression := by
  have ends : trimEnd (s.literal ++ [s.closes]) = s.literal ++ [s.closes] :=
    dropEndLast _ (quoteSolid s.quotes.2) _
  have opens : ';' ≠ s.opens := quoteNotMark rfl s.quotes.1
  have closes : ';' ≠ s.closes := quoteNotMark rfl s.quotes.2
  refine ⟨List.cons_ne_nil _ _,?_,?_⟩
  · rw [expression,trimSolidHead (quoteSolid s.quotes.1),ends]
  · simp [expression,s.unended,opens,closes]

theorem statementShown (s : Quoted) (rest : Text) :
    ofLine? (s.onto rest) = some ⟨s.keyword,s.expression⟩ := by
  have opening : s.expression.head? ≠ some '(' := by
    simpa [expression] using (quoteNotMark rfl s.quotes.1).symm
  have last : s.expression.getLast? ≠ some ')' := by
    rw [expression,← List.cons_append,List.getLast?_concat]
    simpa using (quoteNotMark rfl s.quotes.2).symm
  have closing : s.expression ≠ [')'] := by
    intro same
    simp [same] at last
  have reads := s.spacing.ofBare s.apart s.keyword s.isExpression opening closing rest
  rwa [cutShortIff.mpr last] at reads

end Quoted

/-- Of a line of statements that include one string each, the first alone is shown; so the line shows
all of them exactly if it has no second one. -/
theorem firstQuotedShown (site : IncludeSite) (statements : List Quoted) {back : Text}
    (blank : Blank back) (source : Text) (n : Nat)
    (there : (lines source)[n]? = some (statements.foldr Quoted.onto back)) :
    let shown := (Include.extract site source).filter (·.line = n + 1)
    let all := statements.map fun s => found site (n + 1) ⟨s.keyword,s.expression⟩
    shown = all.take 1 ∧ (shown = all ↔ statements.length ≤ 1) := by
  intro shown all
  have first : shown = all.take 1 := by
    cases statements with
    | nil =>
      have nothing : ofLine? back = none := ofLineEdges blankNil blank []
      simp only [List.foldr_nil] at there
      simp [shown,all,Include.extractAt site there,Include.ofLine?,nothing]
    | cons s rest => exact foundAt site s.spacing.blank.1 there (s.statementShown _)
  refine ⟨first,?_⟩
  rw [first,List.take_eq_self_iff,List.length_map]

/- A page that includes its head, and head and foot on one line, of which the head is shown. -/
theorem headShown :
    let site : IncludeSite := ⟨Path.ofText "/srv/app".toList,Path.ofText "/srv".toList,fun _ => true⟩
    let source := "<?php\n  require 'head.php';\nrequire 'head.php'; include_once \"foot.php\";\n"
    let shown (line : Nat) := (Include.extract site source.toList).filter (·.line = line)
    let head (line : Nat) : Include := ⟨.require,"'head.php'".toList,"app/head.php".toList,line⟩
    shown 2 = [head 2] ∧ shown 3 = [head 3] := by
  intro site source shown head
  have target : site.resolve "'head.php'".toList = "app/head.php".toList := by decide +kernel
  let indented : Quoted := ⟨.require,⟨[' ',' '],[' '],[],by decide⟩,'\x27',"head.php".toList,'\x27',
    by decide,by decide,by decide⟩
  let first : Quoted := ⟨.require,⟨[],[' '],[],by decide⟩,'\x27',"head.php".toList,'\x27',
    by decide,by decide,by decide⟩
  let second : Quoted := ⟨.includeOnce,⟨[' '],[' '],[],by decide⟩,'\x22',"foot.php".toList,'\x22',
    by decide,by decide,by decide⟩
  have alone := (firstQuotedShown site [indented] blankNil source.toList 1 (by decide +kernel)).1
  have both := (firstQuotedShown site [first,second] blankNil source.toList 2 (by decide +kernel)).1
  have written (line : Nat) : found site line ⟨.require,"'head.php'".toList⟩ = head line :=
    congrArg (fun resolved => Include.mk .require "'head.php'".toList resolved line) target
  exact ⟨alone.trans (congrArg ([·]) (written 2)),both.trans (congrArg ([·]) (written 3))⟩

/- The second statement of a line, of the form that the first has. -/
theorem footLost :
    let site : IncludeSite := ⟨Path.ofText "/srv/app".toList,Path.ofText "/srv".toList,fun _ => true⟩
    Include.extract site "require 'head.php';".toList =
      [⟨.require,"'head.php'".toList,"app/head.php".toList,1⟩] ∧
    Include.extract site "include_once \"foot.php\";".toList =
      [⟨.includeOnce,"\"foot.php\"".toList,"app/foot.php".toList,1⟩] ∧
    Include.extract site "require 'head.php'; include_once \"foot.php\";".toList =
      [⟨.require,"'head.php'".toList,"app/head.php".toList,1⟩] := by decide +kernel

end IncludeStatement
end ProjectSlice
