import Mathlib.Data.List.TakeDrop
import ProjectSlice.Proofs.Edges
import ProjectSlice.Proofs.Include

/-! The form of include expressions. Whatever stands in front of a string that is read has neither a
quote nor a `$` in it, the string itself has none, and every form has to span the whole expression.
Main statement: an expression with a `$`, or with any number of quotes but two, has no target. -/
namespace ProjectSlice

namespace IncludeSite
open Sequence Text

def Uncomputed (t : Text) : Prop := ∀ c ∈ t, isLiteral c = true
instance (t : Text) : Decidable (Uncomputed t) :=
  decidable_of_iff (t.all isLiteral = true) List.all_eq_true

def EndsQuoted (t literal : Text) : Prop := ∃ front q p, t = front ++ q::(literal ++ [p]) ∧
  Uncomputed front ∧ Uncomputed literal ∧ isQuote q = true ∧ isQuote p = true

theorem uncomputedBlank {t : Text} (blank : Blank t) : Uncomputed t := by
  intro c mem
  have other (mark : Char) (solid : isBlank mark = false) : (c == mark) = false :=
    blankNotMark solid (blank c mem)
  simp [isLiteral,isQuote,bne,other '\x27' rfl,other '\x22' rfl,other '$' rfl]

theorem uncomputedCounts {t : Text} (plain : Uncomputed t) : '$' ∉ t ∧ t.countP isQuote = 0 := by
  refine ⟨fun mem => absurd (plain _ mem) (by decide),List.countP_eq_zero.mpr fun c mem => ?_⟩
  have literal := plain c mem
  simp_all [isLiteral]

theorem quoteSolid {c : Char} (quote : isQuote c = true) : isBlank c = false := by
  simp only [isQuote,Bool.or_eq_true,beq_iff_eq] at quote
  rcases quote with rfl | rfl <;> rfl

theorem quoteNotMark {mark c : Char} (plain : isQuote mark = false) (quote : isQuote c = true) :
    mark ≠ c := by
  rintro rfl
  exact Bool.noConfusion (plain.symm.trans quote)

theorem quotedEnds {t literal : Text} (read : quoted? t = some literal) :
    EndsQuoted t literal := by
  unfold quoted? at read
  split at read
  · contradiction
  · rename_i q t
    split at read
    · rename_i c rest p cut
      obtain ⟨quotes,same⟩ := Option.ite_none_right_eq_some.mp read
      obtain ⟨opens,closes⟩ := Bool.and_eq_true_iff.mp quotes
      cases same
      rw [List.span_eq_takeWhile_dropWhile] at cut
      obtain ⟨taken,left⟩ := Prod.mk.inj cut
      have whole : t = (c::rest) ++ [p] := by
        rw [← taken,← left,List.takeWhile_append_dropWhile]
      refine ⟨[],q,p,congrArg (q :: ·) whole,nofun,?_,opens,closes⟩
      exact fun d mem => List.mem_takeWhile_imp (taken ▸ mem)
    · contradiction

theorem quotedRead {literal : Text} (nonempty : literal ≠ []) (plain : Uncomputed literal)
    {q p : Char} (opens : isQuote q = true) (closes : isQuote p = true) :
    quoted? (q::(literal ++ [p])) = some literal := by
  have stop : isLiteral p = false := by simp [isLiteral,closes]
  have cut : (literal ++ [p]).span isLiteral = (literal,[p]) := spanAppend plain stop
  obtain ⟨c,rest,rfl⟩ := List.exists_cons_of_ne_nil nonempty
  simp only [quoted?,cut,opens,closes,Bool.and_self,if_true]

/- A text is left as it is where no blank opens it and a quote ends it. -/
theorem trimToQuote {c p : Char} (solid : isBlank c = false) (closes : isQuote p = true)
    (inner : Text) : trim (c::(inner ++ [p])) = c::(inner ++ [p]) := by
  rw [trimSolidHead solid]
  exact congrArg (c :: ·) (dropEndLast isBlank (quoteSolid closes) inner)

namespace EndsQuoted

variable {t literal : Text}

theorem behindPlain {front : Text} (plain : Uncomputed front) (ends : EndsQuoted t literal) :
    EndsQuoted (front ++ t) literal := by
  obtain ⟨inner,q,p,rfl,first,rest⟩ := ends
  exact ⟨front ++ inner,q,p,by simp,List.forall_mem_append.mpr ⟨plain,first⟩,rest⟩

theorem behindText {front rest : Text} (ends : EndsQuoted rest literal)
    (read : after? front t = some rest) (plain : front.all isLiteral = true) :
    EndsQuoted t literal := by
  rw [afterIff.mp read]
  exact ends.behindPlain (List.all_eq_true.mp plain)

theorem behindBlanks (ends : EndsQuoted (trimStart t) literal) : EndsQuoted t literal := by
  rw [← List.takeWhile_append_dropWhile (p := isBlank) (l := t)]
  exact ends.behindPlain (uncomputedBlank fun _ => List.mem_takeWhile_imp)

theorem literalInside (ends : EndsQuoted t literal) : literal ⊆ t := by
  obtain ⟨front,q,p,rfl,_⟩ := ends
  intro c mem
  simp [mem]

theorem quoteCounts (ends : EndsQuoted t literal) : '$' ∉ t ∧ t.countP isQuote = 2 := by
  obtain ⟨front,q,p,rfl,first,inner,opens,closes⟩ := ends
  have noMark {c : Char} (quote : isQuote c = true) : '$' ≠ c := by
    rintro rfl
    contradiction
  simp [uncomputedCounts first,uncomputedCounts inner,opens,closes,noMark opens,noMark closes]

end EndsQuoted

theorem appendedEnds {t literal : Text} (read : appended? t = some literal) :
    EndsQuoted t literal := by
  simp only [appended?,Option.bind_eq_bind,Option.bind_eq_some_iff] at read
  obtain ⟨_,dot,quoted⟩ := read
  exact ((quotedEnds quoted).behindBlanks.behindText dot (by decide)).behindBlanks

theorem dirnameEnds {t rest literal : Text} (called : afterDirname? t = some rest)
    (ends : EndsQuoted rest literal) : EndsQuoted t literal := by
  simp only [afterDirname?,Option.bind_eq_bind,Option.bind_eq_some_iff] at called
  obtain ⟨_,word,_,opens,_,own,closes⟩ := called
  have behindFile := (ends.behindText closes (by decide)).behindBlanks
  have behindCall := (behindFile.behindText own (by decide)).behindBlanks
  have behindWord := (behindCall.behindText opens (by decide)).behindBlanks
  exact behindWord.behindText word (by decide)

/-- How a string leads to a target: behind the directory of the application, or as a path that is
read from the including file's directory or from the root. -/
inductive Leads (site : IncludeSite) (literal : Text) : Text → Prop where
  | application {target : Text}
      (normal : RelativePath.normalize ("application/".toList ++ literal.dropWhile (· == '/')) =
        some target) : Leads site literal target
  | below {base : Path} {part target : Text} (start : base = site.folder ∨ base = site.root)
      (inside : part ⊆ literal)
      (found : site.root.clean.relativeTo? (base.join (Path.ofText part)).clean = some target) :
      Leads site literal target

section
variable {site : IncludeSite} {expression target : Text}

theorem applicationLeads (found : applicationTarget? expression = some target) :
    ∃ literal, EndsQuoted expression literal ∧ Leads site literal target := by
  simp only [applicationTarget?,Option.bind_eq_bind,Option.bind_eq_some_iff] at found
  obtain ⟨_,word,literal,appended,normal⟩ := found
  exact ⟨literal,(appendedEnds appended).behindText word (by decide),.application normal⟩

theorem folderLeads (found : folderTarget? site expression = some target) :
    ∃ literal, EndsQuoted expression literal ∧ Leads site literal target := by
  simp only [folderTarget?,Option.bind_eq_bind,Option.bind_eq_some_iff] at found
  obtain ⟨_,folder,literal,appended,found⟩ := found
  have ends := appendedEnds appended
  have leads : Leads site literal target :=
    .below (.inl rfl) (List.dropWhile_suffix _).subset found
  rcases Option.or_eq_some_iff.mp folder with called | ⟨_,word⟩
  · exact ⟨literal,dirnameEnds called ends,leads⟩
  · exact ⟨literal,ends.behindText word (by decide),leads⟩

theorem literalLeads (found : literalTarget? site expression = some target) :
    ∃ literal, EndsQuoted expression literal ∧ Leads site literal target := by
  simp only [literalTarget?,Option.bind_eq_bind,Option.bind_eq_some_iff] at found
  obtain ⟨literal,quoted,found⟩ := found
  obtain ⟨base,start,there⟩ := List.exists_of_findSome?_eq_some
    (Option.ite_none_right_eq_some.mp found).2
  have below := (Option.ite_none_right_eq_some.mp there).2
  exact ⟨literal,quotedEnds quoted,.below (by simpa using start) (List.Subset.refl literal) below⟩

theorem targetLeads (found : target? site expression = some target) :
    ∃ literal, EndsQuoted (trim expression) literal ∧ Leads site literal target := by
  unfold target? at found
  rcases Option.or_eq_some_iff.mp found with first | ⟨_,literal⟩
  · rcases Option.or_eq_some_iff.mp first with application | ⟨_,folder⟩
    · exact applicationLeads application
    · exact folderLeads folder
  · exact literalLeads literal

end

/-- An expression that is more than one string behind fixed words: a variable occurs in it, or it
does not have the two quotes of one string. -/
def IsComputed (expression : Text) : Prop :=
  '$' ∈ expression ∨ expression.countP isQuote ≠ 2
instance (expression : Text) : Decidable (IsComputed expression) := by
  unfold IsComputed; infer_instance

theorem targetUncomputed {site : IncludeSite} {expression target : Text}
    (found : target? site expression = some target) : ¬IsComputed expression := by
  obtain ⟨front,back,whole,before,behind⟩ := trimInside expression
  obtain ⟨_,ends,_⟩ := targetLeads found
  have noneBefore := uncomputedCounts (uncomputedBlank before)
  have noneBehind := uncomputedCounts (uncomputedBlank behind)
  rw [whole]
  simp [IsComputed,ends.quoteCounts,noneBefore,noneBehind]

/-- An expression with a variable, or without the two quotes of one string, has no target wherever
it stands; so no include of a source text that has such an expression is resolved. -/
theorem computedUnresolved (site : IncludeSite) {expression : Text}
    (computed : IsComputed expression) :
    site.target? expression = none ∧ site.resolve expression = [] ∧
    ∀ source, ∀ i ∈ Include.extract site source, i.expression = expression →
      i.isResolved = false := by
  have untold : site.target? expression = none :=
    Option.eq_none_iff_forall_ne_some.mpr fun _ found => targetUncomputed found computed
  have unresolved : site.resolve expression = [] := by rw [resolve,untold,Option.getD_none]
  refine ⟨untold,unresolved,fun source i mem same => ?_⟩
  obtain ⟨_,_,_,_,_,_,target⟩ := Include.memExtract mem
  simp [Include.isResolved,target,same,unresolved]

/- A view is chosen by a variable between two strings; either string alone would have a target. -/
theorem viewUnresolved :
    let site : IncludeSite := ⟨Path.ofText "/srv/legacy/app".toList,Path.ofText "/srv/legacy".toList,
      fun _ => true⟩
    let view := "APPLICATION_PATH . '/views/' . $name . '.php'".toList
    IsComputed view ∧ site.target? view = none ∧
    site.resolve "APPLICATION_PATH . '/views/'".toList = "application/views".toList ∧
    site.resolve "'.php'".toList = "app/.php".toList := by
  intro site view
  have computed : IsComputed view := by decide
  exact ⟨computed,(computedUnresolved site computed).1,by decide +kernel,by decide +kernel⟩

end IncludeSite
end ProjectSlice
