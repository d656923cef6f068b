import ProjectSlice.Proofs.ClassWords
import ProjectSlice.Proofs.Margins
import ProjectSlice.Proofs.Statement

/-! Types in parameter lists. A list is read up to its first closing parenthesis, so a default value with
parentheses ends it early. Main statement: of a list that its line closes, the types in front of the
first closing parenthesis are shown, and those behind it are lost. -/
namespace ProjectSlice.ReferenceKind
open Sequence Text
open IncludeStatement (openBehind?)

def parameterSigns : List Text := List.map String.toList ["$","&$","...$","&...$"]

def opensParameter (gap : Text) : Bool :=
  gap.head?.any isBlank && parameterSigns.any fun sign => sign.isPrefixOf (trimStart gap)

def IsParameterMark (mark : Text) : Prop :=
  ∃ blanks sign, mark = blanks ++ sign ∧ blanks ≠ [] ∧ Blank blanks ∧ sign ∈ parameterSigns

theorem parameterSignGap {sign : Text} (among : sign ∈ parameterSigns) :
    IsGap sign ∧ sign.head?.any isBlank = false ∧ ')' ∉ sign := by
  have gaps : ∀ sign ∈ parameterSigns, IsGap sign ∧
      sign.head?.any isBlank = false ∧ ')' ∉ sign := by decide
  exact gaps sign among

def afterSign? (t : Text) : Option Text :=
  let t := (after? ['&'] t).getD t
  let t := (after? ['.','.','.'] t).getD t
  after? ['$'] t

theorem optionKept (sign t : Text) :
    ∃ kept, (kept = [] ∨ kept = sign) ∧ t = kept ++ (after? sign t).getD t := by
  cases reads : after? sign t with
  | none => exact ⟨[],.inl rfl,rfl⟩
  | some rest => exact ⟨sign,.inr rfl,afterIff.mp reads⟩

theorem afterSignIff {t rest : Text} :
    afterSign? t = some rest ↔ ∃ sign ∈ parameterSigns, t = sign ++ rest := by
  constructor
  · intro reads
    obtain ⟨ampersand,one,whole⟩ := optionKept ['&'] t
    obtain ⟨ellipsis,two,behind⟩ := optionKept ['.','.','.'] ((after? ['&'] t).getD t)
    rw [behind,afterIff.mp reads] at whole
    refine ⟨ampersand ++ (ellipsis ++ ['$']),?_,by simpa using whole⟩
    rcases one with rfl | rfl <;> rcases two with rfl | rfl <;> decide
  · rintro ⟨sign,among,rfl⟩
    simp only [parameterSigns,List.map_cons,List.map_nil,List.mem_cons,List.not_mem_nil,or_false] at among
    rcases among with rfl | rfl | rfl | rfl <;> rfl

theorem parameterMarks : ReadsMark IsParameterMark fun t => (afterBlanks? t).bind afterSign? := by
  constructor
  · rintro _ ⟨blanks,sign,rfl,some,blank,among⟩
    have gap := (parameterSignGap among).1
    refine ⟨List.append_ne_nil_of_left_ne_nil some _,?_⟩
    exact List.forall_mem_append.mpr ⟨(blankGap some blank).2,gap.2⟩
  · intro t rest
    rw [Option.bind_eq_some_iff]
    constructor
    · rintro ⟨_,begun,reads⟩
      obtain ⟨blanks,rfl,some,blank,_⟩ := afterBlanksIff.mp begun
      obtain ⟨sign,among,rfl⟩ := afterSignIff.mp reads
      exact ⟨_,⟨blanks,sign,rfl,some,blank,among⟩,(List.append_assoc _ _ _).symm⟩
    · rintro ⟨_,⟨blanks,sign,rfl,some,blank,among⟩,rfl⟩
      obtain ⟨gap,solid,_⟩ := parameterSignGap among
      refine ⟨_,afterBlanksIff.mpr ⟨blanks,List.append_assoc _ _ _,some,blank,?_⟩,
        afterSignIff.mpr ⟨sign,among,rfl⟩⟩
      rwa [List.head?_append_of_ne_nil sign gap.1]

theorem opensParameterIff (gap : Text) :
    opensParameter gap = true ↔ ∃ mark, IsParameterMark mark ∧ mark <+: gap := by
  simp only [opensParameter,Bool.and_eq_true,List.any_eq_true,List.isPrefixOf_iff_prefix]
  constructor
  · rintro ⟨first,sign,among,begins⟩
    obtain ⟨blanks,whole,some,blank,_⟩ := afterBlanksIff.mp (afterBlanksTrim.mpr ⟨first,rfl⟩)
    refine ⟨_,⟨blanks,sign,rfl,some,blank,among⟩,?_⟩
    rw [whole]
    exact (List.prefix_append_right_inj blanks).mpr begins
  · rintro ⟨_,⟨blanks,sign,rfl,some,blank,among⟩,more,rfl⟩
    obtain ⟨gap,solid,_⟩ := parameterSignGap among
    have behind : (sign ++ more).head?.any isBlank = false := by
      rwa [List.head?_append_of_ne_nil sign gap.1]
    have begun := afterBlanksIff.mpr ⟨blanks,List.append_assoc _ _ _,some,blank,behind⟩
    obtain ⟨first,same⟩ := afterBlanksTrim.mp begun
    exact ⟨first,sign,among,same ▸ List.prefix_append _ _⟩

theorem parameterTypeThen :
    parameterType = classWordThen fun t => (afterBlanks? t).bind afterSign? := by
  funext before t
  unfold parameterType classWordThen
  split
  · cases classWord? t with
    | none => rfl
    | some found =>
      cases begun : afterBlanks? found.2 with
      | none => simp [bind,Option.bind,begun]
      | some rest =>
        cases reads : afterSign? rest <;> simp_all [bind,Option.bind,afterSign?]
  · rfl

def parameterTypes (t : Text) : List Text := namesBefore opensParameter t

theorem typesFound (t : Text) : search parameterType t = parameterTypes t := by
  rw [parameterTypeThen]
  exact parameterMarks.namesFound opensParameterIff t

theorem typesCut (front back : Text) : parameterTypes (front ++ ')'::back) =
    parameterTypes front ++ parameterTypes (')'::back) := by
  have free {mark : Text} (is : IsParameterMark mark) : ')' ∉ mark := by
    obtain ⟨blanks,sign,rfl,_,blank,among⟩ := is
    rw [List.mem_append,not_or]
    exact ⟨fun mem => Bool.noConfusion (blank _ mem),(parameterSignGap among).2.2⟩
  have cut := parameterMarks.readingsCut rfl free front back none
  have read := parameterMarks.namesRead opensParameterIff
  rwa [read,read,read] at cut

theorem openedListIff {t params rest : Text} : openedList? t = some (params,rest) ↔
    t.head?.any isWord = false ∧ ∃ between inner, t = between ++ '('::inner ∧ '(' ∉ between ∧
      params = inner.takeWhile (· != ')') ∧ rest = inner.dropWhile (· != ')') := by
  unfold openedList?
  rw [Option.ite_none_left_eq_some,Bool.not_eq_true]
  refine and_congr_right fun _ => ?_
  constructor
  · intro reads
    obtain ⟨inner,opened,same⟩ := Option.bind_eq_some_iff.mp reads
    rw [List.span_eq_takeWhile_dropWhile] at same
    obtain ⟨rfl,rfl⟩ := Prod.mk.inj (Option.some.inj same)
    refine ⟨t.takeWhile (· != '('),inner,?_,fun mem => ?_,rfl,rfl⟩
    · have whole : '('::inner = t.dropWhile (· != '(') := (afterIff.mp opened).symm
      rw [whole,List.takeWhile_append_dropWhile]
    · exact absurd (List.mem_takeWhile_imp (p := (· != '(')) mem) (by decide)
  · rintro ⟨between,inner,rfl,free,rfl,rfl⟩
    have passed : ∀ c ∈ between, (c != '(') = true := by
      intro c mem
      rw [bne_iff_ne]
      rintro rfl
      exact free mem
    simp [List.dropWhile_append_of_pos passed,after?,List.span_eq_takeWhile_dropWhile]

theorem parameterListOpened (before : Option Char) (t : Text) :
    parameterList before t = (keyword? "function".toList before t).bind openedList? := rfl

theorem parameterListKeyed : Keyed "function".toList parameterList := by
  refine keywordKeyed (f := openedList?) (by decide) fun {t params rest} reads => ?_
  obtain ⟨apart,between,inner,rfl,_,rfl,rfl⟩ := openedListIff.mp reads
  have whole : between ++ '('::inner =
      (between ++ '('::inner.takeWhile (· != ')')) ++ inner.dropWhile (· != ')') := by simp
  refine ⟨between ++ '('::inner.takeWhile (· != ')'),whole,whole ▸ apart,.inr ?_⟩
  rcases dropToMark ')' inner with same | ⟨_,same⟩
  · rw [same]
    rfl
  · rw [same]
    rfl

/-- A line with one word `function` and, behind it with no other parenthesis in between, a parameter
list that the line closes. -/
structure Signature where
  front : Text
  between : Text
  list : Text
  back : Text
  apart : opensWord front.getLast? = true ∧ between.head?.any isWord = false
  plain : '(' ∉ between ∧ ')' ∉ between
  balanced : openBehind? 0 list = some 0
  single : (pieces (front ++ ("function".toList ++ (between ++ '('::(list ++ ')'::back))))).count
    "function".toList = 1

namespace Signature

def line (s : Signature) : Text :=
  s.front ++ ("function".toList ++ (s.between ++ '('::(s.list ++ ')'::s.back)))

theorem readList (s : Signature) :
    search parameterList s.line = [s.list.takeWhile (· != ')')] := by
  obtain ⟨opens,apart⟩ := s.apart
  let tail := s.between ++ '('::(s.list ++ ')'::s.back)
  have line : s.line = s.front ++ ("function".toList ++ tail) := rfl
  have keyword : IsWord "function".toList := by decide
  have stop : tail.head?.any isWord = false := by
    cases between : s.between with
    | nil => simp only [tail,between]; rfl
    | cons c t => simpa [tail,between] using apart
  have single : (pieces s.line).count "function".toList = 1 := s.single
  rw [line,piecesAtWord opens keyword stop,List.count_append,List.count_cons_self] at single
  have before : "function".toList ∉ pieces s.front := List.count_eq_zero.mp (by omega)
  have behind : "function".toList ∉ pieces tail := List.count_eq_zero.mp (by omega)
  have nothing : readings parameterList none tail = [] := by
    have passed := parameterListKeyed.readingsPastAbsent behind (t := []) (.inr rfl)
    rwa [List.append_nil] at passed
  have list : (s.list ++ ')'::s.back).takeWhile (· != ')') = s.list.takeWhile (· != ')') := by
    induction s.list with
    | nil => rfl
    | cons c t ih => simp only [List.cons_append,List.takeWhile_cons,ih]
  have read : parameterList none ("function".toList ++ tail) =
      some (s.list.takeWhile (· != ')'),(s.list ++ ')'::s.back).dropWhile (· != ')')) := by
    have opened : keyword? "function".toList none ("function".toList ++ tail) = some tail :=
      keywordIff.mpr ⟨rfl,rfl⟩
    rw [parameterListOpened,opened]
    exact openedListIff.mpr ⟨stop,s.between,_,rfl,s.plain.1,list.symm,rfl⟩
  refine parameterListKeyed.searchOnly ?_
  rw [line,parameterListKeyed.readingsPastAbsent before (.inl opens),
    parameterListKeyed.readingsAtWord keyword stop,read,nothing]
  rfl

end Signature

/-- Of the types in a parameter list, those in front of the first closing parenthesis are shown, and
the others are lost. -/
theorem typesShown (s : Signature) :
    let shown := names s.line .typeHint
    parameterTypes s.list = shown ++ parameterTypes (s.list.dropWhile (· != ')')) ∧
    (shown = parameterTypes s.list ↔ parameterTypes (s.list.dropWhile (· != ')')) = []) := by
  intro shown
  have read : shown = parameterTypes (s.list.takeWhile (· != ')')) := by
    simp only [shown,names,s.readList,List.flatMap_singleton,typesFound]
  have all : parameterTypes s.list =
      shown ++ parameterTypes (s.list.dropWhile (· != ')')) := by
    have whole : s.list.takeWhile (· != ')') ++ s.list.dropWhile (· != ')') = s.list :=
      List.takeWhile_append_dropWhile
    rw [read]
    rcases dropToMark ')' s.list with rest | ⟨back,rest⟩
    · rw [rest,List.append_nil] at whole
      have none : parameterTypes [] = [] := rfl
      rw [rest,whole,none,List.append_nil]
    · rw [rest] at whole ⊢
      rw [← typesCut,whole]
  refine ⟨all,?_⟩
  rw [all]
  exact List.self_eq_append_right

/- A list that has parentheses in its last default alone. -/
theorem saveShown :
    let s : Signature := ⟨"public ".toList," save".toList,
      "Model_Car $car, ?Logger &$log, Item ...$items, $opts = array()".toList," \x7b".toList,
      by decide +kernel,by decide +kernel,by decide +kernel,by decide +kernel⟩
    s.line = "public function save(Model_Car $car, ?Logger &$log, Item ...$items, $opts = array()) \x7b".toList ∧
    names s.line .typeHint = List.map String.toList ["Model_Car","Logger","Item"] := by
  intro s
  have types : parameterTypes s.list = List.map String.toList ["Model_Car","Logger","Item"] := by
    decide +kernel
  refine ⟨by decide +kernel,((typesShown s).2.mpr ?_).trans types⟩
  decide +kernel

/- A type behind a default with parentheses. -/
theorem typeBehindDefaultLost :
    let list := "array $a = array(), Foo $b".toList
    let line := "function f(".toList ++ list ++ ") \x7b".toList
    (pieces line).count "function".toList = 1 ∧ openBehind? 0 list = some 0 ∧
    parameterTypes list = ["Foo".toList] ∧ names line .typeHint = [] := by decide +kernel

end ProjectSlice.ReferenceKind
