import ProjectSlice.Proofs.HeadLines
import ProjectSlice.Proofs.Lines
import ProjectSlice.Proofs.Margins

/-! Layouts of a text. A layout puts spaces and tabs around the lines of a text and may write every
line end in two characters. Both ways of cutting a text into lines give the pieces between the line
ends back, but for empty pieces at the end, and nothing that is read of lines depends on these or on
the blanks around a line. Main statement: every layout of a text without carriage returns shows the
same references, includes and declared class as the text. -/
namespace ProjectSlice
open Sequence Text

structure Margin where
  front : Text
  back : Text
  plain : ∀ c ∈ front ++ back, c = ' ' ∨ c = '\t'

inductive LineEnd where
  | lineFeed
  | returned
  deriving DecidableEq, Repr

namespace LineEnd

def mark : LineEnd → Text
  | .lineFeed => []
  | .returned => ['\r']

def text (e : LineEnd) : Text := e.mark ++ ['\n']

end LineEnd

namespace Margin

def around (m : Margin) (line : Text) : Text := m.front ++ (line ++ m.back)

theorem marginBlank (m : Margin) : Blank m.front ∧ Blank m.back := by
  have blank : Blank (m.front ++ m.back) := by
    intro c mem
    rcases m.plain c mem with rfl | rfl <;> decide
  exact List.forall_mem_append.mp blank

theorem freeAround {stop : Char} (m : Margin) (other : stop ≠ ' ' ∧ stop ≠ '\t') {line : Text}
    (free : stop ∉ line) : stop ∉ m.around line := by
  intro mem
  have outside : stop ∉ m.front ++ m.back :=
    fun inside => (m.plain stop inside).elim other.1 other.2
  simp only [around,List.mem_append,not_or] at mem outside
  tauto

end Margin

def laidOut (lineEnd : LineEnd) (margins : Nat → Margin) (t : Text) : Text :=
  joined lineEnd.text ((t.splitOn '\n').mapIdx fun n line => (margins n).around line)

def Piece (t : Text) : Prop := '\n' ∉ t ∧ '\r' ∉ t

theorem pieceNil : Piece [] := ⟨nofun,nofun⟩

theorem pieceCons {c : Char} {t : Text} (piece : Piece (c::t)) :
    (c ≠ '\n' ∧ c ≠ '\r') ∧ Piece t := by
  obtain ⟨feed,back⟩ := piece
  rw [List.mem_cons,not_or] at feed back
  exact ⟨⟨Ne.symm feed.1,Ne.symm back.1⟩,feed.2,back.2⟩

structure CutsAt (lineEnd : LineEnd) (cut : Text → List Text) : Prop where
  closed : ∀ {piece} rest, Piece piece → cut (piece ++ (lineEnd.text ++ rest)) = piece::cut rest
  last : ∀ {piece}, Piece piece → cut piece = if piece = [] then [] else [piece]

theorem CutsAt.joined {lineEnd : LineEnd} {cut : Text → List Text} (cuts : CutsAt lineEnd cut)
    {pieces : List Text} (free : ∀ piece ∈ pieces, Piece piece) :
    ∃ tail, pieces = cut (joined lineEnd.text pieces) ++ tail ∧ ∀ piece ∈ tail, piece = [] := by
  induction pieces with
  | nil => exact ⟨[],by rw [Text.joined,List.intercalate_nil,cuts.last pieceNil]; rfl,nofun⟩
  | cons piece pieces ih =>
    obtain ⟨first,others⟩ := List.forall_mem_cons.mp free
    obtain ⟨tail,same,empty⟩ := ih others
    cases pieces with
    | nil =>
      rw [Text.joined,List.intercalate_singleton,cuts.last first]
      split
      · exact ⟨[piece],rfl,by simpa⟩
      · exact ⟨[],rfl,nofun⟩
    | cons next pieces =>
      refine ⟨tail,?_,empty⟩
      rw [Text.joined,List.intercalate_cons_cons,List.append_assoc,cuts.closed _ first,
        List.cons_append]
      exact congrArg _ same

theorem cutsLines (lineEnd : LineEnd) : CutsAt lineEnd lines := by
  constructor
  · intro piece rest free
    have one : lines (piece ++ lineEnd.text) = [piece] := by
      induction piece with
      | nil => cases lineEnd <;> rfl
      | cons c piece ih =>
        obtain ⟨⟨feed,back⟩,others⟩ := pieceCons free
        rw [List.cons_append,lines,if_neg feed,if_neg fun both => back both.1,ih others]
    have closed : (piece ++ lineEnd.text).getLast? = some '\n' := by
      rw [LineEnd.text,← List.append_assoc,List.getLast?_concat]
    rw [← List.append_assoc,linesBehind (Or.inr closed),one]
    rfl
  · intro piece free
    induction piece with
    | nil => rfl
    | cons c piece ih =>
      obtain ⟨⟨feed,back⟩,others⟩ := pieceCons free
      rw [lines,if_neg feed,if_neg fun both => back both.1,ih others]
      cases piece <;> rfl

def headLines (t : Text) : List Text := (chunks 10 (Utf8.encode t)).map SourceText.headLine

theorem headLineOfPiece {piece : Text} (free : Piece piece) (lineEnd : LineEnd) :
    SourceText.headLine (Utf8.encode (piece ++ lineEnd.mark)) = piece := by
  have mark : ∀ c ∈ lineEnd.mark, (c == '\r') = true := by cases lineEnd <;> simp [LineEnd.mark]
  have inside : ∀ c ∈ piece, (c == '\r') = false := fun c mem =>
    beq_eq_false_iff_ne.mpr fun same => free.2 (same ▸ mem)
  rw [SourceText.headLine,Utf8.decodeEncode,dropEndBehind mark,dropEndNone inside]

theorem feedFree {t : Text} (free : '\n' ∉ t) : 10 ∉ Utf8.encode t :=
  fun mem => free (Utf8.charOfByte (by decide) mem)

theorem cutsHeadLines (lineEnd : LineEnd) : CutsAt lineEnd headLines := by
  constructor
  · intro piece rest free
    have bytes : Utf8.encode (piece ++ (lineEnd.text ++ rest)) =
        Utf8.encode (piece ++ lineEnd.mark) ++ 10::Utf8.encode rest := by
      simp only [LineEnd.text,Utf8.encodeAppend,List.append_assoc]
      rfl
    have marked : '\n' ∉ piece ++ lineEnd.mark := by
      have mark : '\n' ∉ lineEnd.mark := by cases lineEnd <;> decide
      exact fun mem => (List.mem_append.mp mem).elim free.1 mark
    rw [headLines,bytes,chunksAppend (feedFree marked),List.map_cons,headLineOfPiece free]
    rfl
  · intro piece free
    have line := headLineOfPiece free .lineFeed
    rw [LineEnd.mark,List.append_nil] at line
    rw [headLines,chunksOpen (feedFree free.1)]
    by_cases none : piece = []
    · rw [none]
      rfl
    · have some : Utf8.encode piece ≠ [] := fun same => none (Utf8.encodeInjective same)
      rw [if_neg some,if_neg none,List.map_singleton,line]

/-- What is read of lines, if it depends neither on blanks around them nor on empty lines at the
end. -/
structure Unmoved {β : Type} (read : List Text → β) : Prop where
  ends : ∀ {ls tail}, (∀ line ∈ tail, line = []) → read (ls ++ tail) = read ls
  around : ∀ {ls} (margins : Nat → Margin),
    read (ls.mapIdx fun n line => (margins n).around line) = read ls

theorem splitPieces {t : Text} (noReturn : '\r' ∉ t) : ∀ piece ∈ t.splitOn '\n', Piece piece := by
  intro piece mem
  constructor
  · intro inside
    exact Bool.noConfusion ((splitFree mem '\n' inside).symm.trans (beq_self_eq_true '\n'))
  · intro inside
    have whole : ['\n'].intercalate (t.splitOn '\n') = t := List.intercalate_splitOn '\n'
    exact noReturn (whole ▸ (partIntercalate mem).subset inside)

namespace Unmoved
variable {β γ : Type}

theorem readLaidOut {read : List Text → β} (unmoved : Unmoved read) {cut : Text → List Text}
    (cuts : ∀ lineEnd, CutsAt lineEnd cut) (lineEnd : LineEnd) (margins : Nat → Margin) {t : Text}
    (noReturn : '\r' ∉ t) : read (cut (laidOut lineEnd margins t)) = read (cut t) := by
  have pieces := splitPieces noReturn
  have around : ∀ piece ∈ (t.splitOn '\n').mapIdx fun n line => (margins n).around line,
      Piece piece := by
    intro piece mem
    obtain ⟨n,bound,rfl⟩ := List.mem_mapIdx.mp mem
    obtain ⟨feed,back⟩ := pieces _ (List.getElem_mem bound)
    exact ⟨(margins n).freeAround (by decide) feed,(margins n).freeAround (by decide) back⟩
  have whole : joined (LineEnd.text .lineFeed) (t.splitOn '\n') = t := List.intercalate_splitOn '\n'
  obtain ⟨tail,same,empty⟩ := (cuts .lineFeed).joined pieces
  obtain ⟨tail',same',empty'⟩ := (cuts lineEnd).joined around
  rw [whole] at same
  calc read (cut (laidOut lineEnd margins t))
      = read ((t.splitOn '\n').mapIdx fun n line => (margins n).around line) := by
        rw [same',unmoved.ends empty']
        rfl
    _ = read (t.splitOn '\n') := unmoved.around margins
    _ = read (cut t) := by rw [same,unmoved.ends empty]

theorem andThen {read : List Text → β} (unmoved : Unmoved read) (f : β → γ) :
    Unmoved fun ls => f (read ls) :=
  ⟨fun empty => congrArg f (unmoved.ends empty),fun margins => congrArg f (unmoved.around margins)⟩

theorem ofNumberedLines {f : Text × Nat → List β} (quiet : ∀ n, f ([],n) = [])
    (around : ∀ (m : Margin) line n, f (m.around line,n) = f (line,n)) :
    Unmoved fun ls => (ls.zipIdx 1).flatMap f := by
  constructor
  · intro ls tail empty
    have nothing : ∀ line ∈ tail.zipIdx (1 + ls.length), f line = [] := by
      rintro ⟨line,n⟩ mem
      obtain rfl := empty line (List.fst_mem_of_mem_zipIdx mem)
      exact quiet n
    rw [List.zipIdx_append,List.flatMap_append,List.flatMap_eq_nil_iff.mpr nothing,List.append_nil]
  · intro ls margins
    generalize 1 = n
    induction ls generalizing margins n with
    | nil => rfl
    | cons line ls ih =>
      rw [List.mapIdx_cons,List.zipIdx_cons,List.zipIdx_cons,List.flatMap_cons,List.flatMap_cons,
        around]
      exact congrArg _ (ih (fun n => margins (n + 1)) (n + 1))

end Unmoved

theorem Reference.mentionsUnmoved (kinds : List ReferenceKind) :
    Unmoved fun ls => (ls.zipIdx 1).flatMap (mentions kinds) := by
  refine .ofNumberedLines ?_ ?_
  · intro n
    have nothing (kind : ReferenceKind) : kind.names [] = [] := by cases kind <;> rfl
    have noComment : isComment [] = false := by decide
    unfold mentions
    rw [noComment,if_neg Bool.false_ne_true,List.flatMap_eq_nil_iff]
    intro kind _
    rw [nothing]
    rfl
  · intro m line n
    unfold mentions Margin.around
    obtain ⟨front,back⟩ := m.marginBlank
    simp only [commentEdges front back,ReferenceKind.namesEdges front back]

theorem Include.linesUnmoved (site : IncludeSite) :
    Unmoved fun ls => (ls.zipIdx 1).filterMap (ofLine? site) := by
  simp only [List.filterMap_eq_flatMap_toList]
  refine .ofNumberedLines (fun _ => rfl) ?_
  intro m line n
  unfold ofLine? Margin.around
  obtain ⟨front,back⟩ := m.marginBlank
  simp only [commentEdges front back,IncludeStatement.ofLineEdges front back]

theorem Declaration.headUnmoved (most : Nat) : Unmoved fun ls => ofLines? (ls.take most) := by
  constructor
  · intro ls tail empty
    have nothing : (tail.take (most - ls.length)).findSome? ofLine? = none :=
      List.findSome?_eq_none_iff.mpr fun line mem => by
        rw [empty line (List.mem_of_mem_take mem)]
        rfl
    rw [List.take_append,ofLines?,List.findSome?_append,nothing,Option.or_none]
    rfl
  · intro ls margins
    induction ls generalizing margins most with
    | nil => rfl
    | cons line ls ih =>
      cases most with
      | zero => rfl
      | succ most =>
        have around : ofLine? ((margins 0).around line) = ofLine? line := by
          obtain ⟨front,back⟩ := (margins 0).marginBlank
          unfold ofLine? Margin.around
          rw [partsEdges front back]
        have later := ih most fun n => margins (n + 1)
        unfold ofLines? at later ⊢
        rw [List.mapIdx_cons,List.take_succ_cons,List.take_succ_cons,List.findSome?_cons,
          List.findSome?_cons,around,later]

namespace SourceText

theorem declaredOfText {v : Volume} {p : Path} {t : Text}
    (holds : v.read p = .ok (Utf8.encode t)) :
    declaredClass? v p = Declaration.ofLines? ((headLines t).take 100) := by
  rw [declaredOfLines,Volume.firstLines,holds,headLines,← List.map_take]
  rfl

/-- Spaces and tabs around the lines of a text, and carriage returns before its line feeds, change
nothing of what the text shows. -/
theorem layoutUnseen (lineEnd : LineEnd) (margins : Nat → Margin) {t : Text}
    (noReturn : '\r' ∉ t) :
    (∀ kinds, Reference.extract kinds (laidOut lineEnd margins t) = Reference.extract kinds t) ∧
    (∀ site, Include.extract site (laidOut lineEnd margins t) = Include.extract site t) ∧
    ∀ v w p q, Volume.read v p = .ok (Utf8.encode t) →
      Volume.read w q = .ok (Utf8.encode (laidOut lineEnd margins t)) →
      declaredClass? w q = declaredClass? v p := by
  refine ⟨fun kinds => ?_,fun site => ?_,fun v w p q holds changed => ?_⟩
  · exact ((Reference.mentionsUnmoved kinds).andThen fun found => found.foldl Reference.record
      []).readLaidOut cutsLines lineEnd margins noReturn
  · exact (Include.linesUnmoved site).readLaidOut cutsLines lineEnd margins noReturn
  · rw [declaredOfText holds,declaredOfText changed]
    exact (Declaration.headUnmoved 100).readLaidOut cutsHeadLines lineEnd margins noReturn

/- A program as it stands, and the same with indented lines, blanks behind its statements and line
ends of two characters; its last line opens a list that it does not close. -/
theorem indentedCarRead :
    let lines := ["<?php","class Car extends Bus \x7b","$m = new Map();","require 'a.php';",
      "function go(Road $r"]
    let t := joined ['\n'] (lines.map String.toList)
    let margins (n : Nat) : Margin :=
      if n = 0 then ⟨[],['\t'],by simp⟩ else ⟨['\t',' '],[' '],by simp⟩
    let indented := ["<?php\t","\t class Car extends Bus \x7b ","\t $m = new Map(); ",
      "\t require 'a.php'; ","\t function go(Road $r "]
    let u := joined ['\r','\n'] (indented.map String.toList)
    let holds (text : Text) : Volume := ⟨.file (Path.ofText "c".toList) (Utf8.encode text) .empty,[]⟩
    let path := Path.ofText "/c".toList
    let site : IncludeSite := ⟨Path.ofText "/lib".toList,Path.ofText "/lib".toList,fun _ => false⟩
    '\r' ∉ t ∧ laidOut .returned margins t = u ∧
    (holds t).read path = .ok (Utf8.encode t) ∧ (holds u).read path = .ok (Utf8.encode u) ∧
    Reference.extract ReferenceKind.all u = [⟨"Bus".toList,.inheritance,2⟩,
      ⟨"Map".toList,.instantiation,3⟩,⟨"Road".toList,.typeHint,5⟩] ∧
    Include.extract site u = [⟨.require,"'a.php'".toList,[],4⟩] ∧
    declaredClass? (holds u) path = some "Car".toList := by
  intro lines t margins indented u holds path site
  have noReturn : '\r' ∉ t := by decide
  have same : laidOut .returned margins t = u := by decide +kernel
  have old : (holds t).read path = .ok (Utf8.encode t) := by decide +kernel
  have new : (holds u).read path = .ok (Utf8.encode u) := by decide +kernel
  obtain ⟨references,includes,declared⟩ := layoutUnseen .returned margins noReturn
  rw [same] at references includes declared
  refine ⟨noReturn,same,old,new,?_,?_,?_⟩
  · rw [references]
    decide +kernel
  · rw [includes]
    decide +kernel
  · rw [declared (holds t) (holds u) path path old new]
    decide +kernel

end SourceText
end ProjectSlice
