import ProjectSlice.Proofs.Search
import ProjectSlice.Proofs.Words
import ProjectSlice.Reference.Pattern

/-! Lines that import a class. A registration is a call that can be read up to a quote and has no
colons behind those of its name, so no call hides another one; a `use` is read from the trimmed line
as a whole. Main statement: the name that a line imports is among the names read there. -/
namespace ProjectSlice.ReferenceKind
open Sequence Text

theorem blanksBefore (t : Text) : ∃ blanks, t = blanks ++ trimStart t ∧ ':' ∉ blanks := by
  refine ⟨t.takeWhile isBlank,List.takeWhile_append_dropWhile.symm,fun mem => ?_⟩
  exact Bool.noConfusion (List.mem_takeWhile_imp mem)

def Quotes (t rest : Text) : Prop :=
  ∃ taken p, t = taken ++ p::rest ∧ ':' ∉ taken ∧ isQuote p = true

theorem quotesBehind {front t rest : Text} (free : ':' ∉ front) (quotes : Quotes t rest) :
    Quotes (front ++ t) rest := by
  obtain ⟨taken,p,rfl,own,quote⟩ := quotes
  exact ⟨front ++ taken,p,(List.append_assoc _ _ _).symm,by simp [free,own],quote⟩

theorem quotesTrans {t inner rest : Text} (first : Quotes t inner) (second : Quotes inner rest) :
    Quotes t rest := by
  obtain ⟨taken,p,rfl,free,quote⟩ := first
  have outside : ':' ∉ taken ++ [p] := by
    intro mem
    rcases List.mem_append.mp mem with mem | mem
    · exact free mem
    · rw [← List.mem_singleton.mp mem] at quote
      exact Bool.noConfusion quote
  have together := quotesBehind outside second
  rwa [List.append_assoc] at together

theorem quotesTrimmed {t rest : Text} (quotes : Quotes (trimStart t) rest) : Quotes t rest := by
  obtain ⟨blanks,whole,free⟩ := blanksBefore t
  rw [whole]
  exact quotesBehind free quotes

theorem quoteNotWord {c : Char} (quote : isQuote c = true) : isWord c = false := by
  unfold isQuote at quote
  rcases Bool.or_eq_true_iff.mp quote with same | same
  · rw [eq_of_beq same]
    rfl
  · rw [eq_of_beq same]
    rfl

theorem quotedWordIff {t word rest : Text} :
    quotedWord? t = some (word,rest) ↔ ∃ q p, t = q::(word ++ p::rest) ∧ isQuote q = true ∧
      isQuote p = true ∧ IsWord word := by
  cases t with
  | nil => simp [quotedWord?]
  | cons q t =>
    unfold quotedWord?
    constructor
    · intro reads
      dsimp only at reads
      split at reads
      · contradiction
      · contradiction
      · rename_i found p later nonempty spanned
        split at reads
        · rename_i quotes
          cases reads
          obtain ⟨rfl,all,_⟩ := spanWordIff.mp spanned
          rw [Bool.and_eq_true] at quotes
          exact ⟨q,p,rfl,quotes.1,quotes.2,nonempty,all⟩
        · contradiction
    · rintro ⟨_,p,whole,opened,closed,nonempty,all⟩
      obtain ⟨rfl,rfl⟩ := List.cons.inj whole
      obtain ⟨c,word,rfl⟩ := List.exists_cons_of_ne_nil nonempty
      have stop : (p::rest).head?.any isWord = false := quoteNotWord closed
      have spanned := spanWordAppend all stop
      simp only [spanned,opened,closed,Bool.and_self,if_true]

theorem quotesWord {t word rest : Text} (reads : quotedWord? t = some (word,rest)) :
    Quotes t rest := by
  obtain ⟨q,p,rfl,opened,closed,_,all⟩ := quotedWordIff.mp reads
  refine ⟨q::word,p,rfl,?_,closed⟩
  intro mem
  rcases List.mem_cons.mp mem with rfl | mem
  · exact Bool.noConfusion opened
  · exact Bool.noConfusion (all _ mem)

theorem quotesArgument {t word rest : Text} (reads : argument? t = some (word,rest)) :
    Quotes t rest := by
  simp only [argument?,bind,Option.bind_eq_some_iff] at reads
  obtain ⟨inner,opened,reads⟩ := reads
  apply quotesTrimmed
  rw [afterIff.mp opened]
  exact quotesBehind (by decide) (quotesTrimmed (quotesWord reads))

def IsCall (read : Recogniser Text) : Prop :=
  ∀ before t name rest, read before t = some (name,rest) →
    ∃ behind, t = "App::".toList ++ behind ∧ Quotes behind rest

theorem registeredIsCall : IsCall registeredClass := by
  intro before t name rest reads
  simp only [registeredClass,bind,Option.bind_eq_some_iff] at reads
  obtain ⟨inner,called,reads⟩ := reads
  refine ⟨"uses".toList ++ inner,?_,quotesBehind (by decide) (quotesArgument reads)⟩
  rw [afterIff.mp called,← List.append_assoc]
  rfl

theorem importedIsCall : IsCall importedClass := by
  intro before t name rest reads
  simp only [importedClass,bind,Option.bind_eq_some_iff] at reads
  obtain ⟨inner,called,⟨kind,later⟩,first,further,comma,reads⟩ := reads
  have second : Quotes later rest := by
    apply quotesTrimmed
    rw [afterIff.mp comma]
    exact quotesBehind (by decide) (quotesTrimmed (quotesWord reads))
  refine ⟨"import".toList ++ inner,?_,
    quotesBehind (by decide) (quotesTrans (quotesArgument first) second)⟩
  rw [afterIff.mp called,← List.append_assoc]
  rfl

theorem noCallInside {taken beyond inner : Text} {p c : Char} (free : ':' ∉ taken)
    (quote : isQuote p = true) :
    "App::".toList ++ taken ++ [p] ≠ c::inner ++ ("App::".toList ++ beyond) := by
  intro same
  have two : ("App::".toList).count ':' = 2 := rfl
  have none : [p].count ':' = 0 := by
    rw [List.count_eq_zero,List.mem_singleton]
    rintro rfl
    exact Bool.noConfusion quote
  have colons := congrArg (List.count ':') same
  simp only [List.count_append,two,none,List.count_eq_zero.mpr free] at colons
  have outside : ':' ∉ c::inner := List.count_eq_zero.mp (by omega)
  have first := congrArg (List.idxOf ':') same
  rw [List.append_assoc,List.idxOf_append_of_notMem outside] at first
  rw [List.idxOf_append_of_mem (by decide),List.idxOf_append_of_mem (by decide)] at first
  simp at first

/- A call is read up to a quote and has no colons behind the two of its name, so the name of another
call cannot begin inside of it. -/
theorem endsBeforeCall {read : Recogniser Text}
    (calls : IsCall read)
    (front call : Text) : EndsBefore read front ("App::".toList ++ call) := by
  intro before c inner _ name rest reads
  obtain ⟨behind,whole,taken,p,rfl,free,quote⟩ := calls _ _ _ _ reads
  have cut : c::inner ++ ("App::".toList ++ call) = ("App::".toList ++ taken ++ [p]) ++ rest := by
    rw [whole]
    simp
  rcases List.append_eq_append_iff.mp cut with ⟨beyond,shape,further⟩ | ⟨further,shape,rfl⟩
  · rcases List.append_eq_append_iff.mp further with ⟨behind,name,_⟩ | ⟨call,name,rfl⟩
    · rw [name] at shape
      exact absurd shape (noCallInside free quote)
    · rcases List.eq_nil_or_concat beyond with rfl | ⟨beyond,d,rfl⟩
      · exact ⟨[],by rw [name]; rfl,List.nil_suffix⟩
      · rw [List.concat_eq_append] at shape name
        rw [← List.append_assoc] at shape
        obtain ⟨_,last⟩ := List.append_inj' shape rfl
        have inName : p ∈ "App::".toList := by
          rw [name,List.singleton_inj.mp last]
          simp
        have unquoted : ∀ d ∈ "App::".toList, isQuote d = false := by simp [isQuote]
        exact Bool.noConfusion ((unquoted p inName).symm.trans quote)
  · exact ⟨further,rfl,"pp::".toList ++ taken ++ [p],(List.cons.inj shape).2.symm⟩

theorem memCalls {read : Recogniser Text}
    (calls : IsCall read)
    {call name : Text} (begins : "App::".toList <+: call)
    (reads : ∃ rest, ∀ before, read before call = some (name,rest)) (front : Text) :
    name ∈ search read (front ++ call) := by
  obtain ⟨behind,rfl⟩ := begins
  obtain ⟨rest,reads⟩ := reads
  have some : "App::".toList ++ behind ≠ [] := List.append_ne_nil_of_left_ne_nil (by decide) _
  exact memSearch some (endsBeforeCall calls front behind) fun before _ => reads before

def usesCall (name package : Text) : Text :=
  "App::uses(\x27".toList ++ name ++ "\x27, \x27".toList ++ package ++ "\x27)".toList

def importCall (kind name : Text) : Text :=
  "App::import(\x27".toList ++ kind ++ "\x27, \x27".toList ++ name ++ "\x27)".toList

theorem argumentQuoted {word : Text} (own : IsWord word) (rest : Text) :
    argument? ("(\x27".toList ++ word ++ '\x27'::rest) = some (word,rest) := by
  have quoted : quotedWord? ('\x27'::(word ++ '\x27'::rest)) = some (word,rest) :=
    quotedWordIff.mpr ⟨_,_,rfl,rfl,rfl,own⟩
  exact quoted

theorem registeredCall {name : Text} (own : IsWord name) (package after : Text) :
    ∃ rest, ∀ before, registeredClass before (usesCall name package ++ after) =
      some (name,rest) := by
  refine ⟨", \x27".toList ++ package ++ "\x27)".toList ++ after,fun before => ?_⟩
  have whole : usesCall name package ++ after = "App::uses".toList ++ ("(\x27".toList ++ name ++
      '\x27'::(", \x27".toList ++ package ++ "\x27)".toList ++ after)) := by
    have opening : "App::uses(\x27".toList = "App::uses".toList ++ "(\x27".toList := rfl
    have between : "\x27, \x27".toList = '\x27'::", \x27".toList := rfl
    unfold usesCall
    rw [opening,between]
    simp only [List.append_assoc,List.cons_append]
  rw [whole,registeredClass,afterAppend]
  exact argumentQuoted own _

theorem importedCall {kind name : Text} (word : IsWord kind) (own : IsWord name) (after : Text) :
    ∃ rest, ∀ before, importedClass before (importCall kind name ++ after) = some (name,rest) := by
  refine ⟨")".toList ++ after,fun before => ?_⟩
  have quoted : quotedWord? ('\x27'::(name ++ '\x27'::(")".toList ++ after))) =
      some (name,")".toList ++ after) := quotedWordIff.mpr ⟨_,_,rfl,rfl,rfl,own⟩
  have whole : importCall kind name ++ after = "App::import".toList ++ ("(\x27".toList ++ kind ++
      '\x27'::(", ".toList ++ '\x27'::(name ++ '\x27'::(")".toList ++ after)))) := by
    have opening : "App::import(\x27".toList = "App::import".toList ++ "(\x27".toList := rfl
    have between : "\x27, \x27".toList = '\x27'::(", ".toList ++ ['\x27']) := rfl
    have closing : "\x27)".toList = '\x27'::")".toList := rfl
    unfold importCall
    rw [opening,between,closing]
    simp only [List.append_assoc,List.cons_append,List.nil_append]
  rw [whole,importedClass,afterAppend]
  simp only [bind,Option.bind,argumentQuoted word]
  exact quoted

theorem nameCharNotBlank {c : Char} (part : isNameChar c = true) : isBlank c = false := by
  rcases Bool.or_eq_true_iff.mp part with word | stroke
  · exact wordNotBlank word
  · rw [eq_of_beq stroke]
    rfl

theorem joinedWords {segments : List Text} (nonempty : segments ≠ [])
    (words : ∀ s ∈ segments, IsWord s) :
    (∀ c ∈ joined ['\\'] segments, isNameChar c = true) ∧
    ∃ front c, joined ['\\'] segments = front ++ [c] ∧ isWord c = true := by
  have nameChar {c : Char} (word : isWord c = true) : isNameChar c = true := by
    simp [isNameChar,word]
  induction segments with
  | nil => exact absurd rfl nonempty
  | cons s segments ih =>
    obtain ⟨own,rest⟩ := List.forall_mem_cons.mp words
    cases segments with
    | nil =>
      rw [joined,List.intercalate_singleton]
      refine ⟨fun c mem => nameChar (own.2 c mem),s.dropLast,s.getLast own.1,?_,?_⟩
      · exact (List.dropLast_append_getLast own.1).symm
      · exact own.2 _ (List.getLast_mem own.1)
    | cons next segments =>
      obtain ⟨all,front,c,whole,last⟩ := ih (List.cons_ne_nil _ _) rest
      have shape : joined ['\\'] (s::next::segments) =
          s ++ ['\\'] ++ joined ['\\'] (next::segments) := List.intercalate_cons_cons
      rw [shape]
      refine ⟨?_,s ++ ['\\'] ++ front,c,by rw [whole,← List.append_assoc],last⟩
      intro d mem
      rcases List.mem_append.mp mem with mem | mem
      · rcases List.mem_append.mp mem with mem | mem
        · exact nameChar (own.2 d mem)
        · rw [List.mem_singleton.mp mem]
          rfl
      · exact all d mem

theorem usedBelow {segments : List Text} (nonempty : segments ≠ [])
    (words : ∀ s ∈ segments, IsWord s) {line : Text}
    (whole : trim line = "use App\\".toList ++ joined ['\\'] segments ++ [';']) :
    usedName? line = some ("App\\".toList ++ joined ['\\'] segments) := by
  obtain ⟨all,front,c,shape,last⟩ := joinedWords nonempty words
  have taken : (joined ['\\'] segments ++ [';']).takeWhile isNameChar = joined ['\\'] segments := by
    rw [List.takeWhile_append_of_pos all]
    exact List.append_nil _
  have other : (c == '\\') = false := by
    rw [beq_eq_false_iff_ne]
    rintro rfl
    exact Bool.noConfusion last
  have kept : dropEndWhile (· == '\\') ("App\\".toList ++ joined ['\\'] segments) =
      "App\\".toList ++ joined ['\\'] segments := by
    rw [shape,← List.append_assoc]
    exact dropEndLast (· == '\\') other _
  have keyword : after? ['u','s','e'] ("use App\\".toList ++ joined ['\\'] segments ++ [';']) =
      some (" App\\".toList ++ joined ['\\'] segments ++ [';']) := rfl
  have blank : afterBlanks? (" App\\".toList ++ joined ['\\'] segments ++ [';']) =
      some ("App\\".toList ++ joined ['\\'] segments ++ [';']) := rfl
  have stem : after? ['A','p','p','\\'] ("App\\".toList ++ joined ['\\'] segments ++ [';']) =
      some (joined ['\\'] segments ++ [';']) := rfl
  simp only [usedName?,whole,keyword,blank,stem,bind,Option.bind,taken]
  split
  · rename_i empty
    rw [empty] at shape
    exact absurd shape.symm (List.append_ne_nil_of_right_ne_nil _ (List.cons_ne_nil _ _))
  · rw [kept]

/-- A line that imports a class: it is a `use` of a name below `App`, or it registers the class. -/
inductive Imports (name line : Text) : Prop where
  | used (segments : List Text) (nonempty : segments ≠ []) (words : ∀ s ∈ segments, IsWord s)
      (below : name = "App\\".toList ++ joined ['\\'] segments)
      (whole : trim line = "use ".toList ++ name ++ [';'])
  | registered (package : Text) (word : ∀ c ∈ name, isWord c = true)
      (inside : usesCall name package <:+: line)
  | imported (kind : Text) (word : ∀ c ∈ name, isWord c = true) (wordKind : IsWord kind)
      (inside : importCall kind name <:+: line)

theorem importedName {name line : Text} (imports : Imports name line) (nonempty : name ≠ []) :
    name ∈ names line .importing ∧ trim name = name := by
  have solid (word : ∀ c ∈ name, isWord c = true) : trim name = name :=
    trimSolid fun c mem => wordNotBlank (word c mem)
  unfold names
  simp only [List.mem_append,Option.mem_toList]
  cases imports with
  | used segments some words below whole =>
    obtain ⟨all,_⟩ := joinedWords some words
    have stem : ∀ c ∈ "App\\".toList, isNameChar c = true := List.all_eq_true.mp rfl
    have read : usedName? line = Option.some name := by
      rw [below] at whole ⊢
      exact usedBelow some words whole
    refine ⟨Or.inl (Or.inl read),trimSolid fun c mem => ?_⟩
    rw [below] at mem
    rcases List.mem_append.mp mem with mem | mem
    · exact nameCharNotBlank (stem c mem)
    · exact nameCharNotBlank (all c mem)
  | registered package word inside =>
    obtain ⟨front,after,rfl⟩ := inside
    have begins : "App::".toList <+: usesCall name package ++ after := by
      unfold usesCall
      simp only [List.append_assoc]
      exact (by decide : "App::".toList <+: "App::uses(\x27".toList).trans (List.prefix_append _ _)
    refine ⟨Or.inl (Or.inr ?_),solid word⟩
    rw [List.append_assoc]
    exact memCalls registeredIsCall begins
      (registeredCall ⟨nonempty,word⟩ package after) front
  | imported kind word wordKind inside =>
    obtain ⟨front,after,rfl⟩ := inside
    have begins : "App::".toList <+: importCall kind name ++ after := by
      unfold importCall
      simp only [List.append_assoc]
      exact (by decide : "App::".toList <+: "App::import(\x27".toList).trans
        (List.prefix_append _ _)
    refine ⟨Or.inr ?_,solid word⟩
    rw [List.append_assoc]
    exact memCalls importedIsCall begins
      (importedCall wordKind ⟨nonempty,word⟩ after) front

end ProjectSlice.ReferenceKind
