import ProjectSlice.Proofs.Extraction
import ProjectSlice.Proofs.Include

/-! Texts that continue whole lines. What is read of the lines before stays what it is, and the lines
behind are read as a text of their own with larger numbers. Main statement: includes come one behind
the other, and so do references but for the uses that the first text has shown already. -/
namespace ProjectSlice
open Sequence Text

theorem Text.linesNumbered {a : Text} (closed : a = [] ∨ a.getLast? = some '\n') (b : Text) :
    (lines (a ++ b)).zipIdx 1 = (lines a).zipIdx 1 ++
      ((lines b).zipIdx 1).map fun line => (line.1,line.2 + a.count '\n') := by
  rw [linesBehind closed,List.zipIdx_append,linesCounted closed,Nat.add_comm 1,
    ← List.map_snd_add_zipIdx_eq_zipIdx]
  rfl

namespace Reference

def moved (n : Nat) (r : Reference) : Reference := ⟨r.className,r.kind,r.line + n⟩

theorem mentionsMoved (kinds : List ReferenceKind) (n : Nat) (line : Text × Nat) :
    mentions kinds (line.1,line.2 + n) = (mentions kinds line).map (moved n) := by
  unfold mentions
  split
  · rfl
  · rw [List.map_flatMap]
    refine List.flatMap_congr fun kind _ => ?_
    rw [List.map_map]
    rfl

def counted (kinds : List ReferenceKind) (source : Text) : List Reference :=
  (((lines source).zipIdx 1).flatMap (mentions kinds)).filter (Counts ·)

theorem countedBehind (kinds : List ReferenceKind) {a : Text}
    (closed : a = [] ∨ a.getLast? = some '\n') (b : Text) :
    counted kinds (a ++ b) =
      counted kinds a ++ (counted kinds b).map (moved (a.count '\n')) := by
  have shifted : ((lines b).zipIdx 1).flatMap
      (fun line => mentions kinds (line.1,line.2 + a.count '\n')) =
      (((lines b).zipIdx 1).flatMap (mentions kinds)).map (moved (a.count '\n')) := by
    rw [List.map_flatMap]
    exact List.flatMap_congr fun line _ => mentionsMoved kinds _ line
  unfold counted
  rw [linesNumbered closed,List.flatMap_append,List.flatMap_map,shifted,List.filter_append,
    List.filter_map]
  rfl

/- A use of the second text is new if the first text does not show it at all, which is if it is not
among the first uses that were kept of that text. -/
theorem extractBehind (kinds : List ReferenceKind) {a : Text}
    (closed : a = [] ∨ a.getLast? = some '\n') (b : Text) :
    extract kinds (a ++ b) = extract kinds a ++
      ((extract kinds b).filter fun r => use r ∉ (extract kinds a).map use).map
        (moved (a.count '\n')) := by
  have firstUses (t : Text) : extract kinds t = firsts use (counted kinds t) := extractFirsts kinds t
  have kept : firsts use ((counted kinds b).map (moved (a.count '\n'))) =
      (firsts use (counted kinds b)).map (moved (a.count '\n')) := firstsMap use _ _
  rw [firstUses,firstUses,firstUses,countedBehind kinds closed,firstsAppend,kept,List.filter_map]
  congr 2
  refine List.filter_congr fun r _ => ?_
  exact decide_eq_decide.mpr (not_congr memKeysFirsts.symm)

end Reference

namespace Include

def moved (n : Nat) (i : Include) : Include := ⟨i.keyword,i.expression,i.resolved,i.line + n⟩

theorem ofLineMoved (site : IncludeSite) (n : Nat) (line : Text × Nat) :
    ofLine? site (line.1,line.2 + n) = (ofLine? site line).map (moved n) := by
  unfold ofLine?
  split
  · rfl
  · rw [Option.map_map]
    rfl

theorem extractBehind (site : IncludeSite) {a : Text} (closed : a = [] ∨ a.getLast? = some '\n')
    (b : Text) : extract site (a ++ b) =
      extract site a ++ (extract site b).map (moved (a.count '\n')) := by
  unfold extract
  rw [linesNumbered closed,List.filterMap_append,List.filterMap_map,List.map_filterMap]
  refine congrArg _ (List.filterMap_congr fun line _ => ?_)
  exact ofLineMoved site _ line

end Include

namespace SourceText

/-- A text that continues whole lines has the references of both texts, those of the second without
the uses of the first, and the includes of both; behind the first text, lines count on. -/
theorem continuationAppends {a : Text} (closed : a = [] ∨ a.getLast? = some '\n') (b : Text) :
    (∀ kinds, Reference.extract kinds (a ++ b) = Reference.extract kinds a ++
      ((Reference.extract kinds b).filter fun r =>
        (r.className,r.kind) ∉ (Reference.extract kinds a).map fun r => (r.className,r.kind)).map
          (Reference.moved (a.count '\n'))) ∧
    ∀ site, Include.extract site (a ++ b) = Include.extract site a ++
      (Include.extract site b).map (Include.moved (a.count '\n')) :=
  ⟨fun kinds => Reference.extractBehind kinds closed b,fun site => Include.extractBehind site closed b⟩

/- The first text shows one use of the second; its comment and its line ends of two characters count
as lines all the same. -/
theorem taxiContinues :
    let a := "<?php\r\n// new Old\r\n$x = new Car();\r\nrequire 'a/b.php';\r\n".toList
    let b := "$y = new Car(Bus::all());\ninclude __DIR__ . '/c.php';".toList
    let site : IncludeSite :=
      ⟨Path.ofText "/srv/lib".toList,Path.ofText "/srv".toList,fun _ => false⟩
    a.getLast? = some '\n' ∧
    Reference.extract ReferenceKind.all (a ++ b) =
      [⟨"Car".toList,.instantiation,3⟩,⟨"Bus".toList,.staticAccess,5⟩] ∧
    Include.extract site (a ++ b) = [⟨.require,"'a/b.php'".toList,[],4⟩,
      ⟨.include,"__DIR__ . '/c.php'".toList,"lib/c.php".toList,6⟩] := by
  intro a b site
  have closed : a.getLast? = some '\n' := by decide
  obtain ⟨references,includes⟩ := continuationAppends (Or.inr closed) b
  have before : Reference.extract ReferenceKind.all a = [⟨"Car".toList,.instantiation,3⟩] := by
    decide +kernel
  have behind : Reference.extract ReferenceKind.all b =
      [⟨"Car".toList,.instantiation,1⟩,⟨"Bus".toList,.staticAccess,1⟩] := by decide +kernel
  have first : Include.extract site a = [⟨.require,"'a/b.php'".toList,[],4⟩] := by decide +kernel
  have second : Include.extract site b =
      [⟨.include,"__DIR__ . '/c.php'".toList,"lib/c.php".toList,2⟩] := by decide +kernel
  refine ⟨closed,?_,?_⟩
  · rw [references,before,behind]
    rfl
  · rw [includes,first,second]
    rfl

end SourceText
end ProjectSlice
