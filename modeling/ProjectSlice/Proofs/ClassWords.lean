import ProjectSlice.Proofs.Edges
import ProjectSlice.Proofs.Instantiation
import ProjectSlice.Proofs.Readings

/-! Class words in a line. A class word is read where a keyword and blanks stand before it, or where a
mark stands behind it; either way nothing that is read hides another class word of its kind. Main
statement: the class words behind `new` and `extends` and those in front of two colons are the ones
that the pieces of the line show. -/
namespace ProjectSlice.ReferenceKind
open Sequence Text

def IsClassWord (t : Text) : Prop :=
  t.head?.any isCapital = true ∧ 2 ≤ t.length ∧ ∀ c ∈ t, isWord c = true
instance (t : Text) : Decidable (IsClassWord t) :=
  decidable_of_iff (t.head?.any isCapital = true ∧ 2 ≤ t.length ∧ t.all isWord = true)
    (and_congr_right' (and_congr_right' List.all_eq_true))

theorem IsClassWord.word {t : Text} (own : IsClassWord t) : IsWord t := by
  refine ⟨?_,own.2.2⟩
  rintro rfl
  exact Bool.noConfusion own.1

theorem blankGap {blanks : Text} (some : blanks ≠ []) (blank : Blank blanks) : IsGap blanks :=
  ⟨some,fun c mem => blankNotWord (blank c mem)⟩

theorem classWordIff {t name rest : Text} : classWord? t = some (name,rest) ↔
    IsClassWord name ∧ t = name ++ rest ∧ rest.head?.any isWord = false := by
  constructor
  · intro reads
    unfold classWord? at reads
    split at reads
    · rename_i c d word behind spanned
      obtain ⟨capital,same⟩ := Option.ite_none_right_eq_some.mp reads
      cases same
      obtain ⟨whole,all,stop⟩ := spanWordIff.mp spanned
      exact ⟨⟨capital,by simp,all⟩,whole,stop⟩
    · contradiction
  · rintro ⟨⟨capital,long,all⟩,rfl,stop⟩
    rw [classWord?,spanWordAppend all stop]
    rcases name with _ | ⟨c,_ | ⟨d,word⟩⟩
    · contradiction
    · simp at long
    · exact if_pos capital

theorem afterBlanksTrim {t rest : Text} : afterBlanks? t = some rest ↔
    t.head?.any isBlank = true ∧ rest = trimStart t := by
  cases t with
  | nil => simp [afterBlanks?]
  | cons c t =>
    by_cases blank : isBlank c = true
    · simp [afterBlanks?,trimStart,blank,eq_comm]
    · simp [afterBlanks?,blank]

theorem afterBlanksIff {t rest : Text} : afterBlanks? t = some rest ↔
    ∃ blanks, t = blanks ++ rest ∧ blanks ≠ [] ∧ Blank blanks ∧ rest.head?.any isBlank = false := by
  rw [afterBlanksTrim]
  constructor
  · rintro ⟨first,rfl⟩
    refine ⟨t.takeWhile isBlank,List.takeWhile_append_dropWhile.symm,?_,
      fun _ => List.mem_takeWhile_imp,dropHead isBlank t⟩
    cases t with
    | nil => contradiction
    | cons c t =>
      have blank : isBlank c = true := first
      simp [blank]
  · rintro ⟨blanks,rfl,some,blank,stop⟩
    refine ⟨?_,?_⟩
    · obtain ⟨c,blanks,rfl⟩ := List.exists_cons_of_ne_nil some
      exact blank c List.mem_cons_self
    · rw [trimStart,List.dropWhile_append_of_pos blank]
      cases rest with
      | nil => rfl
      | cons d rest => exact (List.dropWhile_cons_of_neg (by simpa using stop)).symm

theorem keywordIff {word t rest : Text} {before : Option Char} :
    keyword? word before t = some rest ↔ opensWord before = true ∧ t = word ++ rest := by
  unfold keyword?
  rw [Option.ite_none_right_eq_some,afterIff]

/- What is read behind a keyword begins with another character, so the keyword is a whole word. -/
theorem keywordKeyed {α : Type} {word : Text} (own : IsWord word) {f : Text → Option (α × Text)}
    (reads : ∀ {t x rest}, f t = some (x,rest) → ∃ taken, t = taken ++ rest ∧
      (taken ++ rest).head?.any isWord = false ∧
      (opensWord (word ++ taken).getLast? = true ∨ rest.head?.any isWord = false)) :
    Keyed word fun before t => (keyword? word before t).bind f := by
  have key {before : Option Char} {t : Text} {found : α × Text}
      (read : (keyword? word before t).bind f = some found) : opensWord before = true ∧
      ∃ taken, t = word ++ (taken ++ found.2) ∧ (taken ++ found.2).head?.any isWord = false ∧
        (opensWord (word ++ taken).getLast? = true ∨ found.2.head?.any isWord = false) := by
    obtain ⟨_,keyword,further⟩ := Option.bind_eq_some_iff.mp read
    obtain ⟨opens,rfl⟩ := keywordIff.mp keyword
    obtain ⟨taken,rfl,apart⟩ := reads further
    exact ⟨opens,taken,rfl,apart⟩
  refine ⟨⟨?_,?_,?_,?_⟩,own,?_⟩
  · intro a b same
    funext t
    simp only [keyword?,same]
  · intro before t inside
    refine Option.eq_none_iff_forall_ne_some.mpr fun found read => ?_
    exact Bool.noConfusion (inside.symm.trans (key read).1)
  · intro before t stop
    refine Option.eq_none_iff_forall_ne_some.mpr fun found read => ?_
    obtain ⟨_,taken,rfl,_⟩ := key read
    obtain ⟨c,inner,rfl⟩ := List.exists_cons_of_ne_nil own.1
    exact Bool.noConfusion (stop.symm.trans (own.2 c List.mem_cons_self))
  · intro before t x rest read
    obtain ⟨_,taken,rfl,_,edge⟩ := key read
    exact ⟨word ++ taken,by simp,List.append_ne_nil_of_left_ne_nil own.1 _,edge⟩
  · intro before t found read
    obtain ⟨_,taken,rfl,first,_⟩ := key read
    exact ⟨_,rfl,first⟩

theorem behindKeywordIff {word t name rest : Text} {before : Option Char} :
    behindKeyword word before t = some (name,rest) ↔ opensWord before = true ∧ IsClassWord name ∧
      rest.head?.any isWord = false ∧
      ∃ blanks, blanks ≠ [] ∧ Blank blanks ∧ t = word ++ (blanks ++ (name ++ rest)) := by
  simp only [behindKeyword,Option.bind_eq_bind,Option.bind_eq_some_iff,keywordIff,afterBlanksIff,
    classWordIff]
  constructor
  · rintro ⟨_,⟨opens,rfl⟩,_,⟨blanks,rfl,some,blank,_⟩,own,rfl,stop⟩
    exact ⟨opens,own,stop,blanks,some,blank,rfl⟩
  · rintro ⟨opens,own,stop,blanks,some,blank,rfl⟩
    refine ⟨_,⟨opens,rfl⟩,_,⟨blanks,rfl,some,blank,?_⟩,own,rfl,stop⟩
    obtain ⟨c,inner,rfl⟩ := List.exists_cons_of_ne_nil own.word.1
    exact wordNotBlank (own.2.2 c List.mem_cons_self)

/-- The class word at the third of these pieces, if the first is `word` and the second is blank. -/
def nameBehind? (word : Text) : List Text → Option Text
  | first::gap::name::_ =>
    if first = word ∧ Blank gap ∧ IsClassWord name then some name else none
  | _ => none

section
variable {word : Text}

theorem behindKeywordKeyed (own : IsWord word) : Keyed word (behindKeyword word) := by
  refine keywordKeyed own fun {t name rest} reads => ?_
  obtain ⟨_,begun,named⟩ := Option.bind_eq_some_iff.mp reads
  obtain ⟨blanks,rfl,some,blank,_⟩ := afterBlanksIff.mp begun
  obtain ⟨capital,rfl,stop⟩ := classWordIff.mp named
  refine ⟨blanks ++ name,(List.append_assoc _ _ _).symm,?_,.inr stop⟩
  rw [List.append_assoc]
  exact gapHead (blankGap some blank) _

/- The keyword is no class word itself, so the name behind it hides nothing. -/
theorem behindKeywordApart (own : IsWord word) (small : word.head?.any isCapital = false)
    {before : Option Char} {t name rest : Text}
    (reads : behindKeyword word before t = some (name,rest)) :
    readings (behindKeyword word) before t = name::readings (behindKeyword word) none rest := by
  have keyed := behindKeywordKeyed own
  obtain ⟨opens,capital,stop,blanks,some,blank,rfl⟩ := behindKeywordIff.mp reads
  have different : word ≠ name := by
    rintro rfl
    exact Bool.noConfusion (small.symm.trans capital.1)
  have gap := blankGap some blank
  rw [keyed.opening (a := before) (b := none) opens] at reads
  rw [keyed.readingsAtEdge (.inl opens),keyed.readingsAtWord own (gapHead gap _),reads,
    keyed.readingsPastGap gap.2 _ rfl,
    keyed.readingsAtWord capital.word stop,keyed.readsNoOtherWord capital.word stop different]
  rfl

theorem behindKeywordShown (own : IsWord word) (t : Text) :
    (behindKeyword word none t).map Prod.fst = nameBehind? word (pieces t) := by
  refine Option.ext fun name => ?_
  rw [Option.map_eq_some_iff]
  constructor
  · rintro ⟨⟨_,rest⟩,reads,rfl⟩
    obtain ⟨_,capital,stop,blanks,some,blank,rfl⟩ := behindKeywordIff.mp reads
    have gap := blankGap some blank
    rw [piecesWord own (gapHead gap _),piecesGap gap (wordHead capital.word _),
      piecesWord capital.word stop]
    exact if_pos ⟨rfl,blank,capital⟩
  · intro shown
    unfold nameBehind? at shown
    split at shown
    · rename_i first gap third more cut
      obtain ⟨⟨rfl,blank,capital⟩,same⟩ := Option.ite_none_right_eq_some.mp shown
      obtain rfl := Option.some.inj same
      obtain ⟨_,rfl,second,_⟩ := piecesForm cut
      obtain ⟨_,rfl,last,own⟩ := piecesForm second.symm
      obtain ⟨rest,rfl,_,form⟩ := piecesForm last.symm
      have some : gap ≠ [] := own.elim (fun word => word.1.1) fun gap => gap.1.1
      have stop := (form.resolve_right fun gap => gapNoWord gap.1 capital.word).2
      exact ⟨(third,rest),behindKeywordIff.mpr ⟨rfl,capital,stop,gap,some,blank,rfl⟩,rfl⟩
    · contradiction

def namesBehind (word line : Text) : List Text := (pieces line).tails.filterMap (nameBehind? word)

theorem behindKeywordReadings (own : IsWord word) (line : Text) :
    readings (behindKeyword word) none line = namesBehind word line :=
  (behindKeywordKeyed own).readingsPieces (behindKeywordShown own) line

end

def classWordThen (further : Text → Option Text) : Recogniser Text := fun before t =>
  if opensWord before then
    (classWord? t).bind fun found => (further found.2).map fun rest => (found.1,rest)
  else none

structure ReadsMark (IsMark : Text → Prop) (further : Text → Option Text) : Prop where
  gap : ∀ {mark}, IsMark mark → IsGap mark
  reads : ∀ {t rest}, further t = some rest ↔ ∃ mark, IsMark mark ∧ t = mark ++ rest

/-- The class word at the first of these pieces, if the second begins as it has to. -/
def nameBefore? (marked : Text → Bool) : List Text → Option Text
  | name::gap::_ => if IsClassWord name ∧ marked gap then some name else none
  | _ => none

theorem nameOfPieces {marked : Text → Bool} {ps : List Text} {name : Text}
    (shown : nameBefore? marked ps = some name) : IsClassWord name := by
  unfold nameBefore? at shown
  split at shown
  · obtain ⟨⟨capital,_⟩,same⟩ := Option.ite_none_right_eq_some.mp shown
    exact Option.some.inj same ▸ capital
  · contradiction

def namesBefore (marked : Text → Bool) (line : Text) : List Text :=
  (pieces line).tails.filterMap (nameBefore? marked)

namespace ReadsMark

variable {IsMark : Text → Prop} {further : Text → Option Text} (marks : ReadsMark IsMark further)
include marks

theorem classWordThenIff {before : Option Char} {t name rest : Text} :
    classWordThen further before t = some (name,rest) ↔ opensWord before = true ∧
      IsClassWord name ∧ ∃ mark, IsMark mark ∧ t = name ++ (mark ++ rest) := by
  simp only [classWordThen,Option.ite_none_right_eq_some,Option.bind_eq_some_iff,
    Option.map_eq_some_iff]
  refine and_congr_right fun _ => ?_
  constructor
  · rintro ⟨⟨_,_⟩,named,_,reads,same⟩
    cases same
    obtain ⟨capital,rfl,_⟩ := classWordIff.mp named
    obtain ⟨mark,is,rfl⟩ := marks.reads.mp reads
    exact ⟨capital,mark,is,rfl⟩
  · rintro ⟨capital,mark,is,rfl⟩
    have stop := gapHead (marks.gap is) rest
    exact ⟨_,classWordIff.mpr ⟨capital,rfl,stop⟩,rest,marks.reads.mpr ⟨mark,is,rfl⟩,rfl⟩

theorem classWordThenShows {before : Option Char} {t name : Text} :
    (classWordThen further before t).map Prod.fst = some name ↔ opensWord before = true ∧
      IsClassWord name ∧ ∃ mark, IsMark mark ∧ name ++ mark <+: t := by
  rw [Option.map_eq_some_iff]
  constructor
  · rintro ⟨⟨_,rest⟩,reads,rfl⟩
    obtain ⟨opens,capital,mark,is,rfl⟩ := marks.classWordThenIff.mp reads
    exact ⟨opens,capital,mark,is,rest,List.append_assoc _ _ _⟩
  · rintro ⟨opens,capital,mark,is,rest,rfl⟩
    have whole : name ++ mark ++ rest = name ++ (mark ++ rest) := List.append_assoc _ _ _
    exact ⟨(name,rest),marks.classWordThenIff.mpr ⟨opens,capital,mark,is,whole⟩,rfl⟩

theorem atWords : AtWords (classWordThen further) := by
  refine ⟨?_,?_,?_,?_⟩
  · intro a b same
    funext t
    simp only [classWordThen,same]
  · intro before t inside
    simp [classWordThen,inside]
  · intro before t stop
    refine Option.eq_none_iff_forall_ne_some.mpr fun found reads => ?_
    obtain ⟨_,capital,mark,_,rfl⟩ := marks.classWordThenIff.mp reads
    obtain ⟨c,name,same⟩ := List.exists_cons_of_ne_nil capital.word.1
    rw [same] at capital stop
    exact Bool.noConfusion (stop.symm.trans (capital.2.2 c List.mem_cons_self))
  · intro before t name rest reads
    obtain ⟨_,capital,mark,is,rfl⟩ := marks.classWordThenIff.mp reads
    have some := List.append_ne_nil_of_left_ne_nil capital.word.1 mark
    exact ⟨name ++ mark,by simp,some,.inl (gapLast (marks.gap is) name)⟩

theorem classWordThenApart {before : Option Char} {t name rest : Text}
    (reads : classWordThen further before t = some (name,rest)) :
    readings (classWordThen further) before t =
      name::readings (classWordThen further) none rest := by
  obtain ⟨opens,capital,mark,is,rfl⟩ := marks.classWordThenIff.mp reads
  have gap := marks.gap is
  rw [marks.atWords.opening (a := before) (b := none) opens] at reads
  rw [marks.atWords.readingsAtEdge (.inl opens),
    marks.atWords.readingsAtWord capital.word (gapHead gap rest),reads,
    marks.atWords.readingsPastGap gap.2 rest rfl]
  rfl

theorem classWordThenPieces {marked : Text → Bool}
    (tells : ∀ gap, marked gap = true ↔ ∃ mark, IsMark mark ∧ mark <+: gap) (t : Text) :
    (classWordThen further none t).map Prod.fst = nameBefore? marked (pieces t) := by
  refine Option.ext fun name => ?_
  rw [marks.classWordThenShows]
  constructor
  · rintro ⟨_,capital,mark,is,more,rfl⟩
    have own := marks.gap is
    obtain ⟨gap,others,cut,begins⟩ := piecesMarked own more
    have marked := (tells gap).mpr ⟨mark,is,begins⟩
    rw [List.append_assoc,piecesWord capital.word (gapHead own more),cut]
    exact if_pos ⟨capital,marked⟩
  · intro shown
    unfold nameBefore? at shown
    split at shown
    · rename_i first gap others cut
      obtain ⟨⟨capital,marked⟩,same⟩ := Option.ite_none_right_eq_some.mp shown
      obtain rfl := Option.some.inj same
      obtain ⟨_,rfl,second,_⟩ := piecesForm cut
      obtain ⟨rest,rfl,_,_⟩ := piecesForm second.symm
      obtain ⟨mark,is,begins⟩ := (tells gap).mp marked
      refine ⟨rfl,capital,mark,is,(List.prefix_append_right_inj first).mpr ?_⟩
      exact begins.trans (List.prefix_append _ _)
    · contradiction

theorem namesRead {marked : Text → Bool}
    (tells : ∀ gap, marked gap = true ↔ ∃ mark, IsMark mark ∧ mark <+: gap) (line : Text) :
    readings (classWordThen further) none line = namesBefore marked line :=
  marks.atWords.readingsPieces (marks.classWordThenPieces tells) line

theorem namesFound {marked : Text → Bool}
    (tells : ∀ gap, marked gap = true ↔ ∃ mark, IsMark mark ∧ mark <+: gap) (line : Text) :
    search (classWordThen further) line = namesBefore marked line := by
  rw [marks.atWords.searchAll marks.classWordThenApart]
  exact marks.namesRead tells line

/- A character that no word and no mark has is a place at which a line can be cut. -/
theorem readingsCut {stop : Char} (outside : isWord stop = false)
    (free : ∀ {mark}, IsMark mark → stop ∉ mark) (front back : Text) (before : Option Char) :
    readings (classWordThen further) before (front ++ stop::back) =
      readings (classWordThen further) before front ++
        readings (classWordThen further) none (stop::back) := by
  have reaches (before : Option Char) (t : Text) :
      (classWordThen further before (t ++ stop::back)).map Prod.fst =
        (classWordThen further before t).map Prod.fst := by
    refine Option.ext fun name => ?_
    rw [marks.classWordThenShows,marks.classWordThenShows]
    refine and_congr_right fun _ => and_congr_right fun capital => exists_congr fun mark =>
      and_congr_right fun is => prefixBefore (p := (· != stop)) (fun c mem => ?_) (by simp)
    rw [bne_iff_ne]
    rintro rfl
    rcases List.mem_append.mp mem with inName | inMark
    · exact Bool.noConfusion (outside.symm.trans (capital.2.2 _ inName))
    · exact free is inMark
  induction front generalizing before with
  | nil => exact marks.atWords.readingsAtEdge (.inr outside)
  | cons c front ih =>
    have same := reaches before (c::front)
    rw [List.cons_append] at same
    rw [List.cons_append,readings,readings,same,ih,List.append_assoc]

end ReadsMark

theorem colonsMark : ReadsMark (· = [':',':']) (after? [':',':']) := by
  refine ⟨?_,?_⟩
  · rintro _ rfl
    decide
  · intro t rest
    simp [afterIff]

theorem scopeOwnerThen : scopeOwner = classWordThen (after? [':',':']) := by
  funext before t
  unfold scopeOwner classWordThen
  split
  · cases classWord? t with
    | none => rfl
    | some found => cases reads : after? [':',':'] found.2 <;> simp [bind,Option.bind,reads]
  · rfl

theorem ownersFound (line : Text) :
    search scopeOwner line = namesBefore [':',':'].isPrefixOf line := by
  rw [scopeOwnerThen]
  exact colonsMark.namesFound (by simp) line

/-- The class words that a line shows behind `new`, behind `extends` and in front of two colons are
those that its pieces show there, all of them or the first; no class word is the word `self`, `static`
or `parent`. -/
theorem classWordsFound (line : Text) :
    names line .instantiation = namesBehind "new".toList line ∧
    names line .inheritance = (namesBehind "extends".toList line).take 1 ∧
    names line .staticAccess = namesBefore [':',':'].isPrefixOf line ∧
    names line .staticAccess = search scopeOwner line := by
  have owners : names line .staticAccess = search scopeOwner line := by
    have small : ∀ word ∈ selfReferences, word.head?.any isCapital = false := by decide
    refine List.filter_eq_self.mpr fun name mem => ?_
    rw [ownersFound] at mem
    obtain ⟨_,_,shown⟩ := List.mem_filterMap.mp mem
    have other : name ∉ selfReferences := fun among =>
      Bool.noConfusion ((small name among).symm.trans (nameOfPieces shown).1)
    simpa using other
  refine ⟨?_,?_,owners.trans (ownersFound line),owners⟩
  · have new : IsWord "new".toList := by decide
    rw [← behindKeywordReadings new]
    exact (behindKeywordKeyed new).searchAll (behindKeywordApart new rfl) line
  · have extended : IsWord "extends".toList := by decide
    rw [names,first?,firstOfReadings,behindKeywordReadings extended]
    exact List.take_one.symm

/- Neither a failed keyword nor a chain hides a name. -/
example :
    let line := "new new Foo; Ab::Cd::e()".toList
    names line .instantiation = ["Foo".toList] ∧
    names line .staticAccess = ["Ab".toList,"Cd".toList] := by decide +kernel

end ProjectSlice.ReferenceKind
