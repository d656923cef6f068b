import ProjectSlice.Proofs.Extraction
import ProjectSlice.Proofs.Include
import ProjectSlice.Proofs.InterfaceList
import ProjectSlice.Proofs.ParameterTypes
import ProjectSlice.Proofs.RelativePath

/-! Where names and expressions come from. A recogniser reads a part of the text from its place on and
goes on at an end of that text, so whatever a search answers stands in the line as it is written there,
and what is cut off afterwards leaves a part of it. Main statement: a reference has a class name that its
line contains, and an include has an expression that its line contains behind the keyword. -/
namespace ProjectSlice

namespace ReferenceKind
open Sequence Text

/-- A class name in any of its forms: word characters and backslashes, the first one no backslash. -/
def IsName (name : Text) : Prop :=
  name ≠ [] ∧ name.head? ≠ some '\\' ∧ ∀ c ∈ name, isNameChar c = true

theorem wordName {word : Text} (own : IsWord word) : IsName word := by
  refine ⟨own.1,fun first => ?_,fun c mem => by simp [isNameChar,own.2 c mem]⟩
  have inside := own.2 '\\' (List.mem_of_head? first)
  exact absurd inside (by decide)

structure Stands (good : Text → Prop) (t part rest : Text) : Prop where
  good : good part
  part : part <:+: t
  rest : rest <:+ t

theorem Stands.ofSuffix {good : Text → Prop} {inner part rest t : Text}
    (stands : Stands good inner part rest) (inside : inner <:+ t) : Stands good t part rest :=
  ⟨stands.good,stands.part.trans inside.isInfix,stands.rest.trans inside⟩

def ReadsParts (good : Text → Prop) (read : Recogniser Text) : Prop :=
  ∀ before t part rest, read before t = some (part,rest) → Stands good t part rest

namespace ReadsParts

variable {good : Text → Prop} {read : Recogniser Text} (parts : ReadsParts good read)
include parts

theorem searchFromParts {room : Nat} {before : Option Char} {t part : Text}
    (mem : part ∈ searchFrom read room before t) : good part ∧ part <:+: t := by
  induction room generalizing before t with
  | zero => contradiction
  | succ room ih =>
    cases t with
    | nil => contradiction
    | cons c t =>
      rw [searchFrom] at mem
      split at mem
      · rename_i first rest reads
        have stands := parts _ _ _ _ reads
        rcases List.mem_cons.mp mem with rfl | later
        · exact ⟨stands.good,stands.part⟩
        · obtain ⟨own,inside⟩ := ih later
          exact ⟨own,inside.trans stands.rest.isInfix⟩
      · obtain ⟨own,inside⟩ := ih mem
        exact ⟨own,inside.trans (List.suffix_cons c t).isInfix⟩

theorem firstPart {line part : Text} (found : first? read line = some part) :
    good part ∧ part <:+: line := by
  obtain ⟨_,_,_,inside,reads⟩ := firstReads found
  have stands := (parts _ _ _ _ reads).ofSuffix inside
  exact ⟨stands.good,stands.part⟩

end ReadsParts

theorem behindKeywordParts (word : Text) : ReadsParts IsName (behindKeyword word) := by
  intro before t name rest reads
  obtain ⟨_,capital,_,blanks,_,_,rfl⟩ := behindKeywordIff.mp reads
  exact ⟨wordName capital.word,⟨word ++ blanks,rest,by simp⟩,⟨word ++ blanks ++ name,by simp⟩⟩

theorem ReadsMark.parts {IsMark : Text → Prop} {further : Text → Option Text}
    (marks : ReadsMark IsMark further) : ReadsParts IsName (classWordThen further) := by
  intro before t name rest reads
  obtain ⟨_,capital,mark,_,rfl⟩ := marks.classWordThenIff.mp reads
  exact ⟨wordName capital.word,(List.prefix_append _ _).isInfix,⟨name ++ mark,by simp⟩⟩

/- Any text can be a parameter list; the types in it are what is read further. -/
theorem parameterListParts : ReadsParts (fun _ => True) parameterList := by
  intro before t params rest reads
  rw [parameterListOpened] at reads
  obtain ⟨_,keyword,opened⟩ := Option.bind_eq_some_iff.mp reads
  obtain ⟨_,rfl⟩ := keywordIff.mp keyword
  obtain ⟨_,between,inner,rfl,_,rfl,rfl⟩ := openedListIff.mp opened
  have inside : inner <:+ "function".toList ++ (between ++ '('::inner) :=
    (List.suffix_cons _ _).trans ((List.suffix_append _ _).trans (List.suffix_append _ _))
  exact Stands.ofSuffix ⟨trivial,(List.takeWhile_prefix _).isInfix,List.dropWhile_suffix _⟩ inside

theorem afterSuffix {front t rest : Text} (reads : after? front t = some rest) : rest <:+ t :=
  ⟨front,(afterIff.mp reads).symm⟩

theorem trimStartSuffix (t : Text) : trimStart t <:+ t := List.dropWhile_suffix _

theorem quotedStands {t word rest : Text} (reads : quotedWord? t = some (word,rest)) :
    Stands IsName t word rest := by
  obtain ⟨q,p,rfl,_,_,own⟩ := quotedWordIff.mp reads
  exact ⟨wordName own,⟨[q],p::rest,by simp⟩,⟨q::(word ++ [p]),by simp⟩⟩

theorem argumentStands {t word rest : Text} (reads : argument? t = some (word,rest)) :
    Stands IsName t word rest := by
  simp only [argument?,bind,Option.bind_eq_some_iff] at reads
  obtain ⟨inner,opened,reads⟩ := reads
  have inside := (trimStartSuffix inner).trans ((afterSuffix opened).trans (trimStartSuffix t))
  exact (quotedStands reads).ofSuffix inside

theorem registeredClassParts : ReadsParts IsName registeredClass := by
  intro before t name rest reads
  simp only [registeredClass,bind,Option.bind_eq_some_iff] at reads
  obtain ⟨inner,called,reads⟩ := reads
  exact (argumentStands reads).ofSuffix (afterSuffix called)

theorem importedClassParts : ReadsParts IsName importedClass := by
  intro before t name rest reads
  simp only [importedClass,bind,Option.bind_eq_some_iff] at reads
  obtain ⟨inner,called,⟨kind,later⟩,first,further,comma,reads⟩ := reads
  have behind : later <:+ t := (argumentStands first).rest.trans (afterSuffix called)
  have inside := (trimStartSuffix further).trans ((afterSuffix comma).trans (trimStartSuffix later))
  exact (quotedStands reads).ofSuffix (inside.trans behind)

/- The backslashes cut off at its end are never all of a used name. -/
theorem usedNameShown {line name : Text} (read : usedName? line = some name) :
    IsName name ∧ name <:+: line := by
  simp only [usedName?,bind,Option.bind_eq_some_iff] at read
  obtain ⟨t,keyword,_,blanks,rest,stem,read⟩ := read
  obtain ⟨_,rfl⟩ := afterBlanksTrim.mp blanks
  split at read
  · contradiction
  · cases read
    let written := "App\\".toList ++ rest.takeWhile isNameChar
    have cut : dropEndWhile (· == '\\') written <+: written := dropEndPrefix _ _
    have kept : dropEndWhile (· == '\\') written =
        'A'::dropEndWhile (· == '\\') ("pp\\".toList ++ rest.takeWhile isNameChar) :=
      dropEndStop rfl [] _
    have all : ∀ c ∈ written, isNameChar c = true := by
      refine List.forall_mem_append.mpr ⟨?_,fun _ => List.mem_takeWhile_imp⟩
      exact List.all_eq_true.mp rfl
    have first : (dropEndWhile (· == '\\') written).head? = some 'A' := congrArg List.head? kept
    refine ⟨⟨List.ne_nil_of_mem (List.mem_of_head? first),by rw [first]; decide,
      fun c mem => all c (cut.subset mem)⟩,?_⟩
    have begins : written <+: trimStart t := by
      rw [afterIff.mp stem]
      exact (List.prefix_append_right_inj _).mpr (List.takeWhile_prefix _)
    have inside : trimStart t <:+: line :=
      ((trimStartSuffix t).trans (afterSuffix keyword)).isInfix.trans (trimInfix line)
    exact cut.isInfix.trans (begins.isInfix.trans inside)

theorem listedInside {parts : List Text} {name : Text} (mem : name ∈ listedNames parts) :
    (∀ c ∈ name, isNameChar c = true) ∧ ∃ part ∈ parts, name <:+: part := by
  induction parts with
  | nil => contradiction
  | cons part parts ih =>
    let first := (trimStart part).takeWhile isNameChar
    have own : (∀ c ∈ first, isNameChar c = true) ∧ ∃ p ∈ part::parts, first <:+: p := by
      refine ⟨fun _ => List.mem_takeWhile_imp,part,List.mem_cons_self,?_⟩
      exact (List.takeWhile_prefix _).isInfix.trans (trimStartSuffix part).isInfix
    rw [listedNames,List.span_eq_takeWhile_dropWhile] at mem
    dsimp only at mem
    split at mem
    · contradiction
    · split at mem
      · rcases List.mem_cons.mp mem with rfl | later
        · exact own
        · obtain ⟨all,p,among,inside⟩ := ih later
          exact ⟨all,p,List.mem_cons_of_mem _ among,inside⟩
      · exact List.mem_singleton.mp mem ▸ own

theorem interfacesInside {line : Text} {found : List Text}
    (read : first? interfaceList line = some found) {name : Text} (mem : name ∈ found) :
    (∀ c ∈ name, isNameChar c = true) ∧ name <:+: line := by
  obtain ⟨_,_,_,inside,reads⟩ := firstReads read
  rw [interfaceListOpened] at reads
  obtain ⟨_,keyword,further⟩ := Option.bind_eq_some_iff.mp reads
  obtain ⟨_,rfl⟩ := keywordIff.mp keyword
  obtain ⟨t,begun,listed⟩ := Option.bind_eq_some_iff.mp further
  obtain ⟨blanks,rfl,_⟩ := afterBlanksIff.mp begun
  unfold listed? at listed
  split at listed
  · contradiction
  · obtain ⟨rfl,rfl⟩ := Prod.mk.inj (Option.some.inj listed)
    obtain ⟨all,part,among,shown⟩ := listedInside mem
    have whole : [','].intercalate (t.splitOn ',') = t := List.intercalate_splitOn ','
    have within : part <:+: t := whole ▸ partIntercalate among
    have behind : t <:+ "implements".toList ++ (blanks ++ t) :=
      (List.suffix_append _ _).trans (List.suffix_append _ _)
    exact ⟨all,shown.trans (within.trans (behind.trans inside).isInfix)⟩

theorem namesInLine {kind : ReferenceKind} {line name : Text} (mem : name ∈ names line kind) :
    IsName name ∧ name <:+: line := by
  cases kind with
  | instantiation => exact (behindKeywordParts _).searchFromParts mem
  | inheritance => exact (behindKeywordParts _).firstPart (Option.mem_toList.mp mem)
  | implementation =>
    obtain ⟨among,some⟩ := List.mem_filter.mp mem
    obtain ⟨whole,listed,rfl⟩ := List.mem_map.mp among
    cases found : first? interfaceList line with
    | none =>
      rw [found] at listed
      contradiction
    | some list =>
      rw [found] at listed
      obtain ⟨all,inside⟩ := interfacesInside found listed
      have behind : whole.dropWhile (· == '\\') <:+ whole := List.dropWhile_suffix _
      refine ⟨⟨by simpa using some,fun first => ?_,fun c mem => all c (behind.subset mem)⟩,
        behind.isInfix.trans inside⟩
      have stop := dropHead (· == '\\') whole
      rw [first] at stop
      exact Bool.noConfusion stop
  | staticAccess =>
    obtain ⟨among,_⟩ := List.mem_filter.mp mem
    rw [scopeOwnerThen] at among
    exact colonsMark.parts.searchFromParts among
  | typeHint =>
    obtain ⟨params,list,among⟩ := List.mem_flatMap.mp mem
    rw [parameterTypeThen] at among
    obtain ⟨own,inside⟩ := parameterMarks.parts.searchFromParts among
    exact ⟨own,inside.trans (parameterListParts.searchFromParts list).2⟩
  | importing =>
    rcases List.mem_append.mp mem with mem | imported
    · rcases List.mem_append.mp mem with used | registered
      · exact usedNameShown (Option.mem_toList.mp used)
      · exact registeredClassParts.searchFromParts registered
    · exact importedClassParts.searchFromParts imported

end ReferenceKind

namespace Reference
open Text

structure Verbatim (source : Text) (r : Reference) : Prop where
  named : ReferenceKind.IsName r.className
  allowed : isDenied r.className = false
  shown : ∃ n line, r.line = n + 1 ∧ (lines source)[n]? = some line ∧ r.className <:+: line

theorem extractVerbatim {kinds : List ReferenceKind} {source : Text} {r : Reference}
    (mem : r ∈ extract kinds source) : r.Verbatim source := by
  have counts := extractCounts mem
  rw [extractPlaced] at mem
  obtain ⟨⟨p,r⟩,among,rfl⟩ := List.mem_map.mp mem
  obtain ⟨n,line,_,kind,_,read,there,_,_,atRank,same⟩ := memPlaced.mp (keptShown among).1
  cases same
  obtain ⟨named,shown⟩ := ReferenceKind.namesInLine (List.mem_of_getElem? atRank)
  have whole : trim read = read :=
    trimSolid fun c mem => ReferenceKind.nameCharNotBlank (named.2.2 c mem)
  simp only [whole] at counts ⊢
  exact ⟨named,counts.2,n,line,rfl,there,shown⟩

end Reference

namespace Include
open Sequence Text

structure Verbatim (source : Text) (i : Include) : Prop where
  trimmed : Trimmed i.expression
  shown : ∃ n front back, i.line = n + 1 ∧
    (lines source)[n]? = some (front ++ (i.keyword.word ++ back)) ∧ i.expression <:+: back

theorem extractVerbatim {site : IncludeSite} {source : Text} {i : Include}
    (mem : i ∈ extract site source) : i.Verbatim source := by
  obtain ⟨n,_,s,there,read,rfl⟩ := memExtractAt mem
  obtain ⟨⟨front,back,rfl,shown⟩,trimmed⟩ := IncludeStatement.statementInLine read
  exact ⟨trimmed,n,front,back,rfl,there,shown⟩

theorem extractAscends (site : IncludeSite) (source : Text) :
    (extract site source).Pairwise (·.line < ·.line) := by
  refine List.pairwise_filterMap.mpr ((zipIdxOrdered _ _).imp fun less i shown j later => ?_)
  rw [lineOfShown shown,lineOfShown later]
  exact less

end Include

namespace SourceText

/-- Every reference and every include of a source text has what it reports from a line of the text as
it is, and the lines of the includes ascend. -/
theorem extractedVerbatim (source : Text) :
    (∀ kinds, ∀ r ∈ Reference.extract kinds source, r.Verbatim source) ∧
    ∀ site, (∀ i ∈ Include.extract site source, i.Verbatim source) ∧
      (Include.extract site source).Pairwise (·.line < ·.line) := by
  refine ⟨fun kinds r mem => Reference.extractVerbatim mem,fun site => ⟨fun i mem => ?_,?_⟩⟩
  · exact Include.extractVerbatim mem
  · exact Include.extractAscends site source

/- A name behind a backslash, and an expression in a call. -/
theorem tollVerbatim :
    let source :=
      "<?php\nclass Toll implements Fee, \\Model_Paid \x7b\n  require_once ('cart.php' );\n".toList
    let site : IncludeSite := ⟨Path.ofText "/srv/app".toList,Path.ofText "/srv".toList,fun _ => true⟩
    let paid : Reference := ⟨"Model_Paid".toList,.implementation,2⟩
    let cart : Include := ⟨.requireOnce,"'cart.php'".toList,"app/cart.php".toList,3⟩
    (paid ∈ Reference.extract ReferenceKind.all source ∧ paid.Verbatim source) ∧
    cart ∈ Include.extract site source ∧ cart.Verbatim source := by
  intro source site paid cart
  have used : paid ∈ Reference.extract ReferenceKind.all source := by decide +kernel
  have required : cart ∈ Include.extract site source := by decide +kernel
  obtain ⟨references,includes⟩ := extractedVerbatim source
  exact ⟨⟨used,references _ paid used⟩,required,(includes site).1 cart required⟩

end SourceText
end ProjectSlice
