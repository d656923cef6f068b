import ProjectSlice.Proofs.FirstOccurrence
import ProjectSlice.Reference.Extract

/-! What is extracted from a source text. Every mention of a class has a place: its line, the
position of its family and its position in what that family reads on the line. Main statement: the
references are exactly the uses shown on some line, each with its first line, no use twice, in the
order of their places. -/
namespace ProjectSlice.Reference
open Sequence Text

/-- A family among `kinds` that shows the name in use on a line of the text; comment lines show
nothing. -/
def ShownOn (kinds : List ReferenceKind) (source : Text) (name : Text) (kind : ReferenceKind)
    (line : Nat) : Prop :=
  kind ∈ kinds ∧ ∃ n text, line = n + 1 ∧ (lines source)[n]? = some text ∧
    isComment text = false ∧ ∃ read ∈ kind.names text, trim read = name

structure Place where
  line : Nat
  family : Nat
  rank : Nat

def Place.Before (p q : Place) : Prop :=
  p.line < q.line ∨ p.line = q.line ∧
    (p.family < q.family ∨ p.family = q.family ∧ p.rank < q.rank)

/-- The place of a reference: its line, the first family of its kind, and the first position of its
name in what that family reads on the line. -/
def placeOf (kinds : List ReferenceKind) (source : Text) (r : Reference) : Place :=
  ⟨r.line,kinds.idxOf r.kind,
    ((r.kind.names ((lines source).getD (r.line - 1) [])).map trim).idxOf r.className⟩

def use (r : Reference) : Text × ReferenceKind := (r.className,r.kind)

def Counts (r : Reference) : Prop := r.className ≠ [] ∧ isDenied r.className = false
instance (r : Reference) : Decidable (Counts r) := by unfold Counts; infer_instance

theorem recordFirsts (done : List Reference) (new : Reference) :
    record (firsts use (done.filter (Counts ·))) new =
      firsts use ((done ++ [new]).filter (Counts ·)) := by
  have met : ((firsts use (done.filter (Counts ·))).any
      fun r => r.className == new.className && r.kind == new.kind) = true ↔
      use new ∈ (done.filter (Counts ·)).map use := by
    rw [← memKeysFirsts,List.any_eq_true,List.mem_map]
    simp only [use,Bool.and_eq_true,beq_iff_eq,Prod.mk.injEq]
  unfold record
  rw [List.filter_append]
  by_cases counts : Counts new
  · have one : [new].filter (Counts ·) = [new] := by simp [counts]
    rw [one,firstsConcat]
    by_cases known : use new ∈ (done.filter (Counts ·)).map use
    · rw [if_pos known,if_pos (Or.inr (Or.inr (met.mpr known)))]
    · rw [if_neg known,if_neg]
      rintro (empty | denied | found)
      · exact counts.1 empty
      · exact absurd (counts.2.symm.trans denied) Bool.false_ne_true
      · exact known (met.mp found)
  · have none : [new].filter (Counts ·) = [] := by simp [counts]
    have passed : new.className = [] ∨ isDenied new.className = true := by
      rw [Counts,not_and_or,not_not,Bool.not_eq_false] at counts
      exact counts
    rw [none,List.append_nil,if_pos (passed.elim Or.inl fun denied => Or.inr (Or.inl denied))]

theorem extractFirsts (kinds : List ReferenceKind) (source : Text) :
    extract kinds source = firsts use
      ((((lines source).zipIdx 1).flatMap (mentions kinds)).filter (Counts ·)) := by
  have start : [] = firsts use (([] : List Reference).filter (Counts ·)) := rfl
  have run := foldGrows (fun done found => found = firsts use (done.filter (Counts ·)))
    (fun done found new reached => by rw [reached]; exact recordFirsts done new)
    (((lines source).zipIdx 1).flatMap (mentions kinds)) start
  unfold extract
  simpa using run

theorem extractCounts {kinds : List ReferenceKind} {source : Text} {r : Reference}
    (mem : r ∈ extract kinds source) : Counts r := by
  rw [extractFirsts] at mem
  exact of_decide_eq_true (List.mem_filter.mp ((firstsSublist use _).subset mem)).2

def placedOn (kinds : List ReferenceKind) (line : Text × Nat) : List (Place × Reference) :=
  if isComment line.1 then []
  else kinds.zipIdx.flatMap fun family =>
    (family.1.names line.1).zipIdx.map fun read =>
      (⟨line.2,family.2,read.2⟩,⟨trim read.1,family.1,line.2⟩)

def placed (kinds : List ReferenceKind) (source : Text) : List (Place × Reference) :=
  ((lines source).zipIdx 1).flatMap (placedOn kinds)

theorem mentionsPlaced (kinds : List ReferenceKind) (line : Text × Nat) :
    (placedOn kinds line).map Prod.snd = mentions kinds line := by
  unfold placedOn mentions
  split
  · rfl
  · have reads (kind : ReferenceKind) :
        (kind.names line.1).zipIdx.map (fun read => Reference.mk (trim read.1) kind line.2) =
          (kind.names line.1).map fun name => ⟨trim name,kind,line.2⟩ := by
      conv_rhs => rw [← List.zipIdx_map_fst 0 (kind.names line.1),List.map_map]
      rfl
    rw [List.map_flatMap]
    conv_rhs => rw [← List.zipIdx_map_fst 0 kinds,List.flatMap_map]
    refine List.flatMap_congr fun family _ => ?_
    rw [List.map_map,← reads]
    rfl

theorem extractPlaced (kinds : List ReferenceKind) (source : Text) :
    extract kinds source = (firsts (fun m => use m.2)
      ((placed kinds source).filter fun m => Counts m.2)).map Prod.snd := by
  have mentioned : ((lines source).zipIdx 1).flatMap (mentions kinds) =
      (placed kinds source).map Prod.snd := by
    rw [placed,List.map_flatMap]
    exact List.flatMap_congr fun line _ => (mentionsPlaced kinds line).symm
  rw [extractFirsts,mentioned,List.filter_map,firstsMap]
  rfl

theorem placedOnOrdered (kinds : List ReferenceKind) (line : Text × Nat) :
    (placedOn kinds line).Pairwise fun a b => a.1.Before b.1 := by
  unfold placedOn
  split
  · exact List.Pairwise.nil
  · refine List.pairwise_flatMap.mpr ⟨?_,?_⟩
    · intro family _
      rw [List.pairwise_map]
      exact (zipIdxOrdered _ _).imp fun less => Or.inr ⟨rfl,Or.inr ⟨rfl,less⟩⟩
    · refine (zipIdxOrdered _ _).imp fun less x memX y memY => ?_
      obtain ⟨_,_,rfl⟩ := List.mem_map.mp memX
      obtain ⟨_,_,rfl⟩ := List.mem_map.mp memY
      exact Or.inr ⟨rfl,Or.inl less⟩

theorem lineOfPlaced {kinds : List ReferenceKind} {line : Text × Nat} {m : Place × Reference}
    (mem : m ∈ placedOn kinds line) : m.1.line = line.2 := by
  unfold placedOn at mem
  split at mem
  · contradiction
  · obtain ⟨_,_,mem⟩ := List.mem_flatMap.mp mem
    obtain ⟨_,_,rfl⟩ := List.mem_map.mp mem
    rfl

theorem placedOrdered (kinds : List ReferenceKind) (source : Text) :
    (placed kinds source).Pairwise fun a b => a.1.Before b.1 := by
  refine List.pairwise_flatMap.mpr ⟨fun line _ => placedOnOrdered kinds line,?_⟩
  refine (zipIdxOrdered _ _).imp fun less x memX y memY => Or.inl ?_
  rw [lineOfPlaced memX,lineOfPlaced memY]
  exact less

theorem memPlaced {kinds : List ReferenceKind} {source : Text} {m : Place × Reference} :
    m ∈ placed kinds source ↔ ∃ n text i kind j read,
      (lines source)[n]? = some text ∧ isComment text = false ∧ kinds[i]? = some kind ∧
      (kind.names text)[j]? = some read ∧ m = (⟨n + 1,i,j⟩,⟨trim read,kind,n + 1⟩) := by
  rw [placed,List.mem_flatMap]
  constructor
  · rintro ⟨⟨text,line⟩,inside,mem⟩
    obtain ⟨positive,atLine⟩ := List.mk_mem_zipIdx_iff_le_and_getElem?_sub.mp inside
    unfold placedOn at mem
    split at mem
    · contradiction
    · rename_i code
      obtain ⟨⟨kind,i⟩,atFamily,mem⟩ := List.mem_flatMap.mp mem
      obtain ⟨⟨read,j⟩,atRank,rfl⟩ := List.mem_map.mp mem
      refine ⟨line - 1,text,i,kind,j,read,atLine,Bool.eq_false_iff.mpr code,
        List.mk_mem_zipIdx_iff_getElem?.mp atFamily,List.mk_mem_zipIdx_iff_getElem?.mp atRank,?_⟩
      rw [Nat.sub_add_cancel positive]
  · rintro ⟨n,text,i,kind,j,read,atLine,code,atFamily,atRank,rfl⟩
    refine ⟨(text,n + 1),List.mk_mem_zipIdx_iff_le_and_getElem?_sub.mpr
      ⟨Nat.le_add_left 1 n,atLine⟩,?_⟩
    unfold placedOn
    rw [if_neg (Bool.eq_false_iff.mp code)]
    exact List.mem_flatMap.mpr ⟨(kind,i),List.mk_mem_zipIdx_iff_getElem?.mpr atFamily,
      List.mem_map.mpr ⟨(read,j),List.mk_mem_zipIdx_iff_getElem?.mpr atRank,rfl⟩⟩

theorem linePlaced {kinds : List ReferenceKind} {source : Text} {m : Place × Reference}
    (mem : m ∈ placed kinds source) : m.1.line = m.2.line := by
  obtain ⟨_,_,_,_,_,_,_,_,_,_,rfl⟩ := memPlaced.mp mem
  rfl

theorem shownPlaced {kinds : List ReferenceKind} {source name : Text} {kind : ReferenceKind}
    {line : Nat} :
    ShownOn kinds source name kind line ↔ ∃ p, (p,⟨name,kind,line⟩) ∈ placed kinds source := by
  constructor
  · rintro ⟨family,n,text,rfl,atLine,code,read,mem,rfl⟩
    obtain ⟨i,atFamily⟩ := List.mem_iff_getElem?.mp family
    obtain ⟨j,atRank⟩ := List.mem_iff_getElem?.mp mem
    exact ⟨_,memPlaced.mpr ⟨n,text,i,kind,j,read,atLine,code,atFamily,atRank,rfl⟩⟩
  · rintro ⟨p,mem⟩
    obtain ⟨n,text,i,_,j,read,atLine,code,atFamily,atRank,same⟩ := memPlaced.mp mem
    cases same
    exact ⟨List.mem_of_getElem? atFamily,n,text,rfl,atLine,code,read,
      List.mem_of_getElem? atRank,rfl⟩

def kept (kinds : List ReferenceKind) (source : Text) : List (Place × Reference) :=
  firsts (fun m => use m.2) ((placed kinds source).filter fun m => Counts m.2)

theorem keptLeast {kinds : List ReferenceKind} {source : Text} {m : Place × Reference}
    (mem : m ∈ kept kinds source) {p : Place} {line : Nat}
    (other : (p,⟨m.2.className,m.2.kind,line⟩) ∈ placed kinds source) :
    (p,⟨m.2.className,m.2.kind,line⟩) = m ∨ m.1.Before p := by
  have counts : Counts m.2 := by
    have inside := (firstsSublist _ _).subset mem
    exact of_decide_eq_true (List.mem_filter.mp inside).2
  have ordered := (placedOrdered kinds source).filter fun m => Counts m.2
  exact firstsLeast ordered mem (List.mem_filter.mpr ⟨other,decide_eq_true counts⟩) rfl

theorem keptShown {kinds : List ReferenceKind} {source : Text} {m : Place × Reference}
    (mem : m ∈ kept kinds source) : m ∈ placed kinds source ∧ Counts m.2 := by
  obtain ⟨shown,counts⟩ := List.mem_filter.mp ((firstsSublist _ _).subset mem)
  exact ⟨shown,of_decide_eq_true counts⟩

/- The place of a kept mention is the least among those of its use, so no earlier family of its kind
and no earlier position in the answer of that family can show the name. -/
theorem keptPlace {kinds : List ReferenceKind} {source : Text} {m : Place × Reference}
    (mem : m ∈ kept kinds source) : m.1 = placeOf kinds source m.2 := by
  obtain ⟨n,text,i,kind,j,read,atLine,code,atFamily,atRank,rfl⟩ := memPlaced.mp (keptShown mem).1
  have named : trim read ∈ (kind.names text).map trim :=
    List.mem_map_of_mem (List.mem_of_getElem? atRank)
  have atFirst := List.getElem?_idxOf named
  rw [List.getElem?_map,Option.map_eq_some_iff] at atFirst
  obtain ⟨read',atFirst,same⟩ := atFirst
  have place : placeOf kinds source ⟨trim read,kind,n + 1⟩ =
      ⟨n + 1,kinds.idxOf kind,((kind.names text).map trim).idxOf (trim read)⟩ := by
    simp only [placeOf,Nat.add_sub_cancel,List.getD,atLine,Option.getD_some]
  have other := memPlaced.mpr ⟨n,text,kinds.idxOf kind,kind,_,read',atLine,code,
    List.getElem?_idxOf (List.mem_of_getElem? atFamily),atFirst,rfl⟩
  rw [same] at other
  rw [place]
  have family := idxOfLeast atFamily
  have atOwn : ((kind.names text).map trim)[j]? = some (trim read) := by
    rw [List.getElem?_map,atRank]
    rfl
  have rank := idxOfLeast atOwn
  rcases keptLeast mem other with first | before
  · exact (congrArg Prod.fst first).symm
  · rcases before with less | ⟨_,less | ⟨_,less⟩⟩
    · exact absurd less (Nat.lt_irrefl _)
    · exact absurd less (Nat.not_lt.mpr family)
    · exact absurd less (Nat.not_lt.mpr rank)

theorem keptFirst {kinds : List ReferenceKind} {source : Text} {m : Place × Reference}
    (mem : m ∈ kept kinds source) {line : Nat}
    (shown : ShownOn kinds source m.2.className m.2.kind line) : m.2.line ≤ line := by
  obtain ⟨p,other⟩ := shownPlaced.mp shown
  have place := linePlaced (keptShown mem).1
  have otherPlace := linePlaced other
  rcases keptLeast mem other with same | less | ⟨equal,_⟩
  · exact Nat.le_of_eq (congrArg (fun m => m.2.line) same).symm
  · exact Nat.le_of_lt (by rwa [place,otherPlace] at less)
  · exact Nat.le_of_eq (by rwa [place,otherPlace] at equal)

theorem keptOfShown {kinds : List ReferenceKind} {source name : Text} {kind : ReferenceKind}
    {line : Nat} (nonempty : name ≠ []) (allowed : isDenied name = false)
    (shown : ShownOn kinds source name kind line) :
    ∃ m ∈ kept kinds source, m.2.className = name ∧ m.2.kind = kind := by
  obtain ⟨p,mem⟩ := shownPlaced.mp shown
  have counts : Counts ⟨name,kind,line⟩ := ⟨nonempty,allowed⟩
  have recorded : (p,⟨name,kind,line⟩) ∈ (placed kinds source).filter fun m => Counts m.2 :=
    List.mem_filter.mpr ⟨mem,decide_eq_true counts⟩
  have key := List.mem_map_of_mem (f := fun m => use m.2) recorded
  obtain ⟨m,kept,same⟩ := List.mem_map.mp (memKeysFirsts.mpr key)
  exact ⟨m,kept,congrArg Prod.fst same,congrArg Prod.snd same⟩

/-- The references of a text are exactly the uses shown on its lines, each with the first line that
shows it, every use once, and in the order of their places. -/
theorem extractFirstUses (kinds : List ReferenceKind) (source : Text) :
    (∀ name kind line, ⟨name,kind,line⟩ ∈ extract kinds source ↔
      name ≠ [] ∧ isDenied name = false ∧ ShownOn kinds source name kind line ∧
        ∀ earlier < line, ¬ShownOn kinds source name kind earlier) ∧
    ((extract kinds source).map fun r => (r.className,r.kind)).Nodup ∧
    (extract kinds source).Pairwise fun a b =>
      (placeOf kinds source a).Before (placeOf kinds source b) := by
  refine ⟨?_,?_,?_⟩
  · intro name kind line
    rw [extractPlaced]
    constructor
    · intro mem
      obtain ⟨⟨p,r⟩,mem,rfl⟩ := List.mem_map.mp mem
      obtain ⟨shown,counts⟩ := keptShown mem
      refine ⟨counts.1,counts.2,shownPlaced.mpr ⟨p,shown⟩,?_⟩
      intro earlier less again
      exact absurd (keptFirst mem again) (Nat.not_le_of_lt less)
    · rintro ⟨nonempty,allowed,shown,first⟩
      obtain ⟨⟨p,r⟩,mem,rfl,rfl⟩ := keptOfShown nonempty allowed shown
      have own : ShownOn kinds source r.className r.kind r.line :=
        shownPlaced.mpr ⟨p,(keptShown mem).1⟩
      have same : r.line = line := by
        refine Nat.le_antisymm (keptFirst mem shown) (Nat.le_of_not_lt fun less => ?_)
        exact first r.line less own
      exact List.mem_map.mpr ⟨(p,r),mem,by rw [← same]⟩
  · rw [extractFirsts]
    exact keysFirstsNodup use _
  · rw [extractPlaced,List.pairwise_map]
    have ordered := ((placedOrdered kinds source).filter fun m => Counts m.2).sublist
      (firstsSublist (fun m => use m.2) _)
    refine ordered.imp_of_mem fun memA memB before => ?_
    rwa [← keptPlace memA,← keptPlace memB]

end ProjectSlice.Reference
