import ProjectSlice.Proofs.ClassWords
import ProjectSlice.Proofs.Margins

/-! Lists of interfaces. A list is cut at its commas, and each part is one name with blanks around it, up
to the name that something else follows. Main statement: the names of a list that was written behind the
first word `implements` of a line are read back, whatever blanks stand around its commas. -/
namespace ProjectSlice.ReferenceKind
open Sequence Text

/-- A name as a list can have it: word characters and backslashes, not backslashes alone. -/
def IsListed (name : Text) : Prop :=
  (∀ c ∈ name, isNameChar c = true) ∧ name.dropWhile (· == '\\') ≠ []
instance (name : Text) : Decidable (IsListed name) :=
  decidable_of_iff (name.all isNameChar = true ∧ name.dropWhile (· == '\\') ≠ [])
    (and_congr_left' List.all_eq_true)

structure Further where
  before : Text
  behind : Text
  name : Text
  blank : Blank before ∧ Blank behind
  listed : IsListed name

namespace Further

def onto (further : Further) (rest : Text) : Text :=
  further.before ++ ','::(further.behind ++ (further.name ++ rest))

end Further

/-- What a list cannot go on with: no character of a name, and no comma behind blanks. -/
def EndsList (after : Text) : Prop :=
  after.head?.any isNameChar = false ∧ (trimStart after).head? ≠ some ','
instance (after : Text) : Decidable (EndsList after) := by unfold EndsList; infer_instance

section
variable {lead name : Text}

theorem IsListed.nonempty (listed : IsListed name) : name ≠ [] := by
  rintro rfl
  exact listed.2 rfl

theorem listedPart (blank : Blank lead) (listed : IsListed name) {rest : Text}
    (stop : rest.head?.any isNameChar = false) (parts : List Text) :
    listedNames ((lead ++ (name ++ rest))::parts) =
      if rest.all isBlank then name::listedNames parts else [name] := by
  have begun : trimStart (lead ++ (name ++ rest)) = name ++ rest := by
    obtain ⟨c,inner,rfl⟩ := List.exists_cons_of_ne_nil listed.nonempty
    have solid : isBlank c = false := nameCharNotBlank (listed.1 c List.mem_cons_self)
    simp [trimStart,List.dropWhile_append_of_pos blank,solid]
  have cut : (name ++ rest).span isNameChar = (name,rest) := spanAppend listed.1 stop
  simp only [listedNames,begun,cut,if_neg listed.nonempty]

theorem commaFree (blank : Blank lead) (listed : IsListed name) {rest : Text} (free : ',' ∉ rest) :
    ',' ∉ lead ++ (name ++ rest) := by
  simp only [List.mem_append,not_or]
  exact ⟨fun mem => Bool.noConfusion (blank _ mem),fun mem => Bool.noConfusion (listed.1 _ mem),free⟩

theorem listedOnto (blank : Blank lead) (listed : IsListed name) {behind : Text}
    (gap : Blank behind) (t : Text) :
    listedNames ((lead ++ (name ++ (behind ++ ','::t))).splitOn ',') =
      name::listedNames (t.splitOn ',') := by
  have free : ',' ∉ behind := fun mem => Bool.noConfusion (gap _ mem)
  have cut : (lead ++ (name ++ (behind ++ ','::t))).splitOn ',' =
      (lead ++ (name ++ behind))::t.splitOn ',' := by
    simpa using List.splitOn_append_cons_self_of_not_mem (commaFree blank listed free) t
  have stop : behind.head?.any isNameChar = false := by
    cases behind with
    | nil => rfl
    | cons c behind => exact blankNotNameChar (gap c List.mem_cons_self)
  rw [cut,listedPart blank listed stop,if_pos (List.all_eq_true.mpr gap)]

theorem listedLast (blank : Blank lead) (listed : IsListed name) {after : Text}
    (ends : EndsList after) : listedNames ((lead ++ (name ++ after)).splitOn ',') = [name] := by
  by_cases comma : ',' ∈ after
  · obtain ⟨behind,t,rfl,free⟩ := List.eq_append_cons_of_mem comma
    have cut : (lead ++ (name ++ (behind ++ ','::t))).splitOn ',' =
        (lead ++ (name ++ behind))::t.splitOn ',' := by
      simpa using List.splitOn_append_cons_self_of_not_mem (commaFree blank listed free) t
    have stop : behind.head?.any isNameChar = false := by
      cases behind with
      | nil => rfl
      | cons c behind => exact ends.1
    rw [cut,listedPart blank listed stop,if_neg]
    -- with blanks alone in front of it, the comma would go on with the list
    intro all
    refine ends.2 ?_
    rw [trimStart,List.dropWhile_append_of_pos (List.all_eq_true.mp all)]
    rfl
  · have whole : (lead ++ (name ++ after)).splitOn ',' = [lead ++ (name ++ after)] :=
      List.splitOn_eq_singleton_of_beq_eq_false fun c mem =>
        beq_eq_false_iff_ne.mpr fun same => commaFree blank listed comma (same ▸ mem)
    rw [whole,listedPart blank listed ends.1]
    exact ite_self [name]

end

theorem listedNamesWritten {lead first after : Text} (blank : Blank lead) (listed : IsListed first)
    (further : List Further) (ends : EndsList after) :
    listedNames ((lead ++ (first ++ further.foldr Further.onto after)).splitOn ',') =
      first::further.map (·.name) := by
  induction further generalizing lead first with
  | nil => exact listedLast blank listed ends
  | cons next further ih =>
    have rest := ih next.blank.2 next.listed
    rw [List.foldr_cons,Further.onto,listedOnto blank listed next.blank.1,rest]
    rfl

theorem interfaceListOpened (before : Option Char) (t : Text) : interfaceList before t =
    (keyword? "implements".toList before t).bind fun t => (afterBlanks? t).bind listed? := rfl

theorem interfaceListKeyed : Keyed "implements".toList interfaceList := by
  refine keywordKeyed (f := fun t => (afterBlanks? t).bind listed?) (by decide)
    fun {t found rest} reads => ?_
  obtain ⟨_,begun,listed⟩ := Option.bind_eq_some_iff.mp reads
  obtain ⟨blanks,rfl,some,blank,_⟩ := afterBlanksIff.mp begun
  have gap := blankGap some blank
  unfold listed? at listed
  split at listed
  · contradiction
  · cases listed
    exact ⟨blanks,rfl,gapHead gap _,.inl (gapLast gap _)⟩

/-- The names of a list behind the first word `implements` of a line are the names read there, without
the backslashes that they begin with. -/
theorem interfacesRead {before blanks first after : Text} (opens : opensWord before.getLast? = true)
    (earliest : "implements".toList ∉ pieces before) (some : blanks ≠ []) (blank : Blank blanks)
    (listed : IsListed first) (further : List Further) (ends : EndsList after) :
    names (before ++ ("implements".toList ++
      (blanks ++ (first ++ further.foldr Further.onto after)))) .implementation =
      (first::further.map (·.name)).map (·.dropWhile (· == '\\')) := by
  let list := first ++ further.foldr Further.onto after
  have written : listedNames (list.splitOn ',') = first::further.map (·.name) :=
    listedNamesWritten blankNil listed further ends
  have read : interfaceList none ("implements".toList ++ (blanks ++ list)) =
      .some (first::further.map (·.name),list) := by
    have solid : list.head?.any isBlank = false := by
      obtain ⟨c,inner,same⟩ := List.exists_cons_of_ne_nil listed.nonempty
      simp only [list,same]
      exact nameCharNotBlank (listed.1 c (same ▸ List.mem_cons_self))
    have opened : keyword? "implements".toList none ("implements".toList ++ (blanks ++ list)) =
        .some (blanks ++ list) := keywordIff.mpr ⟨rfl,rfl⟩
    have begun : afterBlanks? (blanks ++ list) = .some list :=
      afterBlanksIff.mpr ⟨blanks,rfl,some,blank,solid⟩
    rw [interfaceListOpened,opened,Option.bind_some,begun,Option.bind_some,listed?,written]
  have found : first? interfaceList (before ++ ("implements".toList ++ (blanks ++ list))) =
      .some (first::further.map (·.name)) := by
    have stop := gapHead (blankGap some blank) list
    rw [first?,firstOfReadings,interfaceListKeyed.readingsPastAbsent earliest (.inl opens),
      interfaceListKeyed.readingsAtWord interfaceListKeyed.own stop,read]
    rfl
  have kept : ∀ name ∈ first::further.map (·.name), name.dropWhile (· == '\\') ≠ [] := by
    refine List.forall_mem_cons.mpr ⟨listed.2,fun name mem => ?_⟩
    obtain ⟨next,_,rfl⟩ := List.mem_map.mp mem
    exact next.listed.2
  rw [names,found,Option.getD_some,List.filter_eq_self]
  intro name mem
  obtain ⟨whole,among,rfl⟩ := List.mem_map.mp mem
  simpa using kept whole among

/- Commas with a blank behind, in front and on neither side, and a name from the root. -/
theorem billInterfacesRead :
    let line := "class Bill implements\tPayable ,\\Countable,Model_Taxable, App\\Paid \x7b".toList
    "implements".toList ∉ pieces "class Bill ".toList ∧ EndsList " \x7b".toList ∧
    names line .implementation =
      List.map String.toList ["Payable","Countable","Model_Taxable","App\\Paid"] := by
  intro line
  let further : List Further := [⟨[' '],[],"\\Countable".toList,by decide,by decide +kernel⟩,
    ⟨[],[],"Model_Taxable".toList,by decide,by decide +kernel⟩,
    ⟨[],[' '],"App\\Paid".toList,by decide,by decide +kernel⟩]
  have earliest : "implements".toList ∉ pieces "class Bill ".toList := by decide +kernel
  have ends : EndsList " \x7b".toList := by decide +kernel
  have listed : IsListed "Payable".toList := by decide +kernel
  have blank : Blank ['\t'] := by decide
  have opens : opensWord "class Bill ".toList.getLast? = true := by decide
  have read := interfacesRead opens earliest (List.cons_ne_nil _ _) blank listed further ends
  exact ⟨earliest,ends,read⟩

end ProjectSlice.ReferenceKind
