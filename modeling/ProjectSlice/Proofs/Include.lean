import ProjectSlice.Dependency
import ProjectSlice.Proofs.Lines
import ProjectSlice.Proofs.Search
import ProjectSlice.Proofs.Words

/-! What an include statement is read from. Everything that stands around an expression is cut off
at one of its two ends. Main statements: an expression stands in its line as it was written, so it
is one line itself, and two sites find the same statements in a text. -/
namespace ProjectSlice

namespace Text
open Sequence

theorem dropEndPrefix (p : Char → Bool) (t : Text) : dropEndWhile p t <+: t := by
  rw [← List.reverse_suffix,dropEndWhile,List.reverse_reverse]
  exact List.dropWhile_suffix p

theorem trimInfix (t : Text) : trim t <:+: t :=
  (dropEndPrefix _ _).isInfix.trans (List.dropWhile_suffix _).isInfix

end Text

namespace IncludeStatement
open Text

theorem withoutClosingPrefix (t : Text) : withoutClosing t <+: t := by
  unfold withoutClosing
  dsimp only
  split
  · exact (dropEndPrefix _ _).trans ((List.dropLast_prefix _).trans (dropEndPrefix _ _))
  · exact dropEndPrefix _ _

theorem expressionPrefix {t expression : Text} (read : expression? t = some expression) :
    expression <+: t := by
  cases t with
  | nil => contradiction
  | cons c t =>
    rw [expression?] at read
    split at read
    · cases Option.some.inj read
      exact (List.prefix_cons_inj c).mpr
        ((withoutClosingPrefix _).trans (List.takeWhile_prefix _))
    · contradiction

theorem beginningSuffix (t : Text) : beginning t <:+ t := by
  unfold beginning
  split
  · rename_i inner opened
    have behind : '('::inner <:+ t := opened ▸ List.dropWhile_suffix _
    exact (List.dropWhile_suffix _).trans ((List.suffix_cons _ _).trans behind)
  · exact List.dropWhile_suffix _

theorem expressionBehind {t expression : Text} (read : expressionBehind? t = some expression) :
    expression <:+: t := by
  unfold expressionBehind? at read
  dsimp only at read
  split at read
  · rename_i found
    cases Option.some.inj read
    exact (expressionPrefix found).isInfix.trans (beginningSuffix t).isInfix
  · exact (expressionPrefix read).isInfix.trans (List.drop_suffix _ _).isInfix

theorem keywordRead {before : Option Char} {t rest : Text} {s : IncludeStatement}
    (reads : read before t = some (s,rest)) :
    t = s.keyword.word ++ rest ∧ s.expression <:+: rest ∧ Trimmed s.expression := by
  unfold read at reads
  split at reads
  · dsimp only [spanWord] at reads
    split at reads
    · contradiction
    · rename_i keyword named
      obtain ⟨expression,behind,same⟩ := Option.map_eq_some_iff.mp reads
      cases same
      have word : keyword.word = t.takeWhile isWord :=
        eq_of_beq (List.find?_some (p := (IncludeKeyword.word · == t.takeWhile isWord)) named)
      refine ⟨?_,(trimInfix expression).trans (expressionBehind behind),trimTrimmed expression⟩
      rw [word,List.takeWhile_append_dropWhile]
  · contradiction

/- The last semicolon ends what is read, and what stands behind it belongs to the line all the same. -/
theorem statementInLine {line : Text} {s : IncludeStatement} (found : ofLine? line = some s) :
    (∃ front back, line = front ++ (s.keyword.word ++ back) ∧ s.expression <:+: back) ∧
    Trimmed s.expression := by
  obtain ⟨before,t,rest,⟨front,cut⟩,reads⟩ := firstReads found
  obtain ⟨beyond,whole⟩ := dropEndPrefix (· != ';') line
  obtain ⟨rfl,shown,trimmed⟩ := keywordRead reads
  refine ⟨⟨front,rest ++ beyond,?_,shown.trans (List.prefix_append _ _).isInfix⟩,trimmed⟩
  rw [← whole,← cut]
  simp only [List.append_assoc]

theorem expressionInLine {line : Text} {s : IncludeStatement} (found : ofLine? line = some s) :
    s.expression <:+: line := by
  obtain ⟨⟨front,back,rfl,shown⟩,_⟩ := statementInLine found
  exact shown.trans ((List.suffix_append _ _).trans (List.suffix_append _ _)).isInfix

end IncludeStatement

namespace Include
open Text

theorem ofFileIff {v : Volume} {root file : Path} {found : List Include} :
    ofFile v root file = .ok found ↔
      ∃ text, SourceText.read v file = .ok text ∧ found = extract (siteOf v root file) text := by
  unfold ofFile
  cases SourceText.read v file with
  | error failure => simp [Except.map]
  | ok text => simp [Except.map,eq_comm]

theorem lineOfShown {site : IncludeSite} {line : Text × Nat} {i : Include}
    (shown : ofLine? site line = some i) : i.line = line.2 := by
  unfold ofLine? at shown
  split at shown
  · contradiction
  · obtain ⟨s,_,rfl⟩ := Option.map_eq_some_iff.mp shown
    rfl

theorem memExtractAt {site : IncludeSite} {source : Text} {i : Include}
    (mem : i ∈ extract site source) : ∃ n line s, (lines source)[n]? = some line ∧
      IncludeStatement.ofLine? line = some s ∧
      i = ⟨s.keyword,s.expression,site.resolve s.expression,n + 1⟩ := by
  obtain ⟨⟨line,number⟩,among,shown⟩ := List.mem_filterMap.mp mem
  obtain ⟨positive,there⟩ := List.mk_mem_zipIdx_iff_le_and_getElem?_sub.mp among
  unfold ofLine? at shown
  split at shown
  · contradiction
  · obtain ⟨s,read,rfl⟩ := Option.map_eq_some_iff.mp shown
    refine ⟨number - 1,line,s,there,read,?_⟩
    rw [Nat.sub_add_cancel positive]

theorem memExtract {site : IncludeSite} {source : Text} {i : Include}
    (mem : i ∈ extract site source) : ∃ line ∈ lines source, ∃ s,
      IncludeStatement.ofLine? line = some s ∧ i.keyword = s.keyword ∧
      i.expression = s.expression ∧ i.resolved = site.resolve i.expression := by
  obtain ⟨n,line,s,there,read,rfl⟩ := memExtractAt mem
  exact ⟨line,List.mem_of_getElem? there,s,read,rfl,rfl,rfl⟩

theorem expressionOneLine {site : IncludeSite} {source : Text} {i : Include}
    (mem : i ∈ extract site source) : '\n' ∉ i.expression := by
  obtain ⟨line,inside,s,read,_,same,_⟩ := memExtract mem
  rw [same]
  exact fun lineFeed =>
    lineFree inside ((IncludeStatement.expressionInLine read).subset lineFeed)

def withoutTarget (i : Include) : Include := ⟨i.keyword,i.expression,[],i.line⟩

theorem extractStatements (site other : IncludeSite) (source : Text) :
    (extract site source).map withoutTarget = (extract other source).map withoutTarget := by
  have line (s : IncludeSite) (l : Text × Nat) : (ofLine? s l).map withoutTarget =
      if isComment l.1 then none
      else (IncludeStatement.ofLine? l.1).map fun i => ⟨i.keyword,i.expression,[],l.2⟩ := by
    unfold ofLine?
    split
    · rfl
    · rw [Option.map_map]
      rfl
  unfold extract
  simp only [List.map_filterMap,line]

end Include
end ProjectSlice
