import ProjectSlice.FileTree.Edit
import ProjectSlice.Proofs.FileTree.Walk

/-! Files written to a tree. A walk stands in a directory at every step, so the file that a path names
for writing lies in a directory that exists, and none has to be made for it. Main statements: a write
changes nothing but the file that its path names, and what was written is read back by the path. -/
namespace ProjectSlice

def Entry.outside : Entry → Entry
  | .folder _ => .folder .empty
  | entry => entry

theorem Entry.sameOutside {a b : Option Entry} (same : a.map outside = b.map outside) :
    (a = none ∧ b = none) ∨
    (∃ content, a = some (.file content) ∧ b = some (.file content)) ∨
    (∃ target, a = some (.link target) ∧ b = some (.link target)) ∨
    ∃ inside other, a = some (.folder inside) ∧ b = some (.folder other) := by
  rcases a with _ | a <;> rcases b with _ | b
  · exact Or.inl ⟨rfl,rfl⟩
  · contradiction
  · contradiction
  · cases a <;> cases b <;> simp_all [outside]

theorem Entry.fileOutside {entry : Option Entry} {content : Bytes}
    (file : entry.map outside = some (.file content)) : entry = some (.file content) := by
  rcases sameOutside (b := some (.file content)) file with ⟨_,b⟩ | ⟨_,a,b⟩ | ⟨_,_,b⟩ | ⟨_,_,_,b⟩ <;>
    cases b
  exact a

namespace Listing

theorem atBelow {l : Listing} {p q : List Bytes}
    (closed : ∀ inside, l.at? p ≠ some (.folder inside)) (further : q ≠ []) :
    l.at? (p ++ q) = none := by
  rw [Option.eq_none_iff_forall_ne_some]
  intro entry found
  obtain ⟨inside,folder⟩ := folderAbove further found
  exact closed inside folder

theorem atSetFile {l : Listing} {name : Bytes} (closed : ∀ inside, l.at? [name] ≠ some (.folder inside))
    (content : Bytes) (p : List Bytes) :
    ((l.set name (.file content)).at? p).map Entry.outside =
      if p = [name] then some (.file content) else (l.at? p).map Entry.outside := by
  cases p with
  | nil => rfl
  | cons n names =>
    rw [atCons,findSet]
    by_cases own : name = n
    · subst own
      rw [if_pos rfl,Option.bind_some]
      by_cases last : names = []
      · subst last
        rw [if_pos rfl]
        rfl
      · have below : l.at? ([name] ++ names) = none := atBelow closed last
        rw [List.singleton_append] at below
        rw [if_neg fun same => last (List.cons.inj same).2,below]
        simp only [Entry.at?,if_neg last,Option.map_none]
    · rw [if_neg own,← atCons,if_neg fun same => own (List.cons.inj same).1.symm]

theorem atSetFileAt {l inside : Listing} {here : Position} {name : Bytes}
    (folder : l.at? here = some (.folder inside))
    (closed : ∀ below, l.at? (here ++ [name]) ≠ some (.folder below)) (content : Bytes)
    (p : Position) :
    ((l.setAt (here ++ [name]) (.file content)).at? p).map Entry.outside =
      if p = here ++ [name] then some (.file content) else (l.at? p).map Entry.outside := by
  induction here generalizing l p with
  | nil => exact atSetFile closed content p
  | cons h here ih =>
    obtain ⟨above,found,there⟩ : ∃ above, l.find? h = some (.folder above) ∧
        above.at? here = some (.folder inside) := by
      rw [atCons,Option.bind_eq_some_iff] at folder
      obtain ⟨entry,found,there⟩ := folder
      cases entry with
      | folder above => exact ⟨above,found,there⟩
      | file other | link target =>
        simp only [Entry.at?] at there
        split at there <;> cases there
    have inner (q : Position) : l.at? (h::q) = above.at? q := by
      rw [atCons,found]
      rfl
    obtain ⟨first,rest,cut⟩ := List.exists_cons_of_ne_nil (List.concat_ne_nil name here)
    have set : l.setAt (h::(here ++ [name])) (.file content) =
        l.set h (.folder (above.setAt (here ++ [name]) (.file content))) := by
      rw [cut]
      simp only [setAt,found]
    rw [List.cons_append] at closed ⊢
    rw [inner] at closed
    cases p with
    | nil => rfl
    | cons n names =>
      rw [set,atCons,findSet]
      by_cases own : h = n
      · subst own
        rw [if_pos rfl,Option.bind_some,inner]
        simp only [List.cons.injEq,true_and]
        exact ih there closed names
      · rw [if_neg own,← atCons,if_neg fun same => own (List.cons.inj same).1.symm]

end Listing

namespace Volume
open ProjectSlice.Path (dot)

/-- Two trees that differ at most in what stands at one position. -/
structure SameBut (position : Position) (v w : Volume) : Prop where
  workFolder : v.workFolder = w.workFolder
  entries : ∀ p ≠ position, (v.top.at? p).map Entry.outside = (w.top.at? p).map Entry.outside

/-- The position of the file that a path names for writing, whether or not it is there already. -/
def fileFor? (v : Volume) (p : Path) : Option Position :=
  match v.lookup .creating p with
  | .ok (.file position _) | .ok (.absent position) => some position
  | _ => none

def IsFolder (top : Listing) (here : Position) : Prop :=
  ∃ inside, top.at? here = some (.folder inside)

theorem folderUp {top : Listing} {here : Position} (folder : IsFolder top here) :
    IsFolder top here.dropLast := by
  rcases List.eq_nil_or_concat' here with rfl | ⟨front,last,rfl⟩
  · exact folder
  · obtain ⟨inside,there⟩ := folder
    rw [List.dropLast_concat]
    exact Listing.folderAbove (List.cons_ne_nil last []) there

def LiesInside (top : Listing) : Found → Prop
  | .file position _ | .absent position => ∃ here name, position = here ++ [name] ∧ IsFolder top here
  | .folder _ _ => True

section
variable {top : Listing} {purpose : Purpose}

theorem walkStepsInside {follow : Position → List Bytes → Except Failure Found}
    (followed : ∀ here steps found, IsFolder top here → follow here steps = .ok found →
      LiesInside top found)
    {here : Position} {steps : List Bytes} {found : Found} (folder : IsFolder top here)
    (ok : walkSteps top purpose follow here steps = .ok found) : LiesInside top found := by
  induction steps generalizing here with
  | nil =>
    rw [walkSteps] at ok
    split at ok
    · cases ok
      trivial
    · contradiction
  | cons step rest ih =>
    rw [walkSteps] at ok
    split at ok
    · exact ih folder ok
    · split at ok
      · exact ih (folderUp folder) ok
      · split at ok
        · contradiction
        · split at ok
          · contradiction
          · split at ok
            · split at ok
              · cases ok
                exact ⟨here,step,rfl,folder⟩
              · contradiction
            · split at ok
              · cases ok
                exact ⟨here,step,rfl,folder⟩
              · contradiction
            · rename_i inside there
              exact ih ⟨inside,there⟩ ok
            · refine followed _ _ _ ?_ ok
              split
              · exact ⟨top,rfl⟩
              · exact folder

theorem walkInside {links : Nat} {here : Position} {steps : List Bytes} {found : Found}
    (folder : IsFolder top here) (ok : walk top purpose links here steps = .ok found) :
    LiesInside top found := by
  induction links generalizing here steps found with
  | zero => exact walkStepsInside (fun _ _ _ _ refused => by cases refused) folder ok
  | succ links ih => exact walkStepsInside (fun _ _ _ => ih) folder ok

end

theorem lookupInside {v : Volume} {purpose : Purpose} {p : Path} {found : Found}
    (work : IsFolder v.top v.workFolder) (ok : v.lookup purpose p = .ok found) :
    LiesInside v.top found := by
  unfold lookup at ok
  split at ok
  · contradiction
  · split at ok
    · contradiction
    · split at ok
      · contradiction
      · refine walkInside ?_ ok
        split
        · exact ⟨v.top,rfl⟩
        · exact work

/-! The same walk after the file has been written. -/

section
variable {top other : Listing} {position : Position} {content : Bytes}
  (same : ∀ p ≠ position, (top.at? p).map Entry.outside = (other.at? p).map Entry.outside)
  (before : top.at? position = none ∨ ∃ old, top.at? position = some (.file old))
  (after : other.at? position = some (.file content))
include same before after

theorem walkStepsWritten {follow follow' : Position → List Bytes → Except Failure Found}
    (followed : ∀ here steps found, follow here steps = .ok found →
      (found = .absent position ∨ ∃ old, found = .file position old) →
      follow' here steps = .ok (.file position content))
    {here : Position} {steps : List Bytes} {found : Found}
    (ok : walkSteps top .creating follow here steps = .ok found)
    (ends : found = .absent position ∨ ∃ old, found = .file position old) :
    walkSteps other .existing follow' here steps = .ok (.file position content) := by
  induction steps generalizing here with
  | nil =>
    rw [walkSteps] at ok
    split at ok
    · cases ok
      rcases ends with ends | ⟨_,ends⟩ <;> cases ends
    · contradiction
  | cons step rest ih =>
    by_cases stays : step = [] ∨ step = [dot]
    · rw [walkSteps,if_pos stays] at ok ⊢
      exact ih ok
    · by_cases climbs : step = [dot,dot]
      · rw [walkSteps,if_neg stays,if_pos climbs] at ok ⊢
        exact ih ok
      · rw [walkSteps,if_neg stays,if_neg climbs] at ok
        rw [walkName (by decide) stays climbs]
        split at ok
        · contradiction
        · split at ok
          · contradiction
          · rename_i short
            have passes : ¬(nameLimit < step.length ∨ isTooDeep .existing (here ++ [step]) = true) :=
              not_or.mpr ⟨(not_or.mp short).1,Bool.false_ne_true⟩
            rw [if_neg passes]
            by_cases own : here ++ [step] = position
            · rw [own] at ok ⊢
              rw [after]
              rcases before with none | ⟨old,file⟩
              · rw [none] at ok
                dsimp only at ok
                split at ok
                · rename_i last
                  exact if_pos last.2
                · contradiction
              · rw [file] at ok
                dsimp only at ok
                split at ok
                · rename_i last
                  exact if_pos last
                · contradiction
            · rcases Entry.sameOutside (same _ own) with
                ⟨a,b⟩ | ⟨old,a,b⟩ | ⟨target,a,b⟩ | ⟨_,_,a,b⟩ <;> rw [a] at ok <;> rw [b]
              · dsimp only at ok
                split at ok
                · cases ok
                  rcases ends with ends | ⟨_,ends⟩ <;> cases ends
                  exact absurd rfl own
                · contradiction
              · dsimp only at ok
                split at ok
                · cases ok
                  rcases ends with ends | ⟨_,ends⟩ <;> cases ends
                  exact absurd rfl own
                · contradiction
              · exact followed _ _ _ ok ends
              · exact ih ok

theorem walkWritten {links : Nat} {here : Position} {steps : List Bytes} {found : Found}
    (ok : walk top .creating links here steps = .ok found)
    (ends : found = .absent position ∨ ∃ old, found = .file position old) :
    walk other .existing links here steps = .ok (.file position content) := by
  induction links generalizing here steps found with
  | zero =>
    exact walkStepsWritten same before after (fun _ _ _ refused => by cases refused) ok ends
  | succ links ih => exact walkStepsWritten same before after (fun _ _ _ => ih) ok ends

end

theorem lookupWritten {v w : Volume} {position : Position} {content : Bytes}
    (same : SameBut position v w)
    (before : v.top.at? position = none ∨ ∃ old, v.top.at? position = some (.file old))
    (after : w.top.at? position = some (.file content)) {p : Path} {found : Found}
    (ok : v.lookup .creating p = .ok found)
    (ends : found = .absent position ∨ ∃ old, found = .file position old) :
    w.find p = .ok (.file position content) := by
  rw [lookup] at ok
  rw [find,lookup]
  split at ok
  · contradiction
  · rename_i plain
    split at ok
    · contradiction
    · rename_i nonempty
      split at ok
      · contradiction
      · rename_i short
        have passes : ¬(Purpose.existing ≠ .resolving ∧ pathLimit ≤ p.length) :=
          fun long => short ⟨by decide,long.2⟩
        rw [if_neg plain,if_neg nonempty,if_neg passes,← same.workFolder]
        exact walkWritten same.entries before after ok ends

theorem setFileAt {v : Volume} {position : Position}
    (inside : ∃ here name, position = here ++ [name] ∧ IsFolder v.top here)
    (before : v.top.at? position = none ∨ ∃ old, v.top.at? position = some (.file old))
    (content : Bytes) :
    SameBut position v ⟨v.top.setAt position (.file content),v.workFolder⟩ ∧
      (v.top.setAt position (.file content)).at? position = some (.file content) := by
  obtain ⟨here,name,rfl,inside,folder⟩ := inside
  have closed : ∀ below, v.top.at? (here ++ [name]) ≠ some (.folder below) := by
    rcases before with none | ⟨old,file⟩
    · rw [none]
      exact nofun
    · rw [file]
      exact nofun
  have set := Listing.atSetFileAt folder closed content
  exact ⟨⟨rfl,fun p other => by rw [set,if_neg other]⟩,Entry.fileOutside (by rw [set,if_pos rfl])⟩

/-- What a write does: the file that the path names is there with the content, it is what the path
then leads to, and everything else is as it was. -/
theorem writeOnlyFile {v w : Volume} {p : Path} {content : Bytes}
    (work : IsFolder v.top v.workFolder) (written : v.write p content = .ok w) :
    ∃ position, v.fileFor? p = some position ∧ SameBut position v w ∧
      w.top.at? position = some (.file content) ∧ w.read p = .ok content := by
  have outcome {position : Position} {found : Found} (ok : v.lookup .creating p = .ok found)
      (ends : found = .absent position ∨ ∃ old, found = .file position old)
      (changed : w = ⟨v.top.setAt position (.file content),v.workFolder⟩) :
      SameBut position v w ∧ w.top.at? position = some (.file content) ∧
        w.read p = .ok content := by
    have stands := lookupStands ok
    have lies := lookupInside work ok
    have before : v.top.at? position = none ∨ ∃ old, v.top.at? position = some (.file old) := by
      rcases ends with rfl | ⟨old,rfl⟩
      · exact Or.inl stands
      · exact Or.inr ⟨old,stands⟩
    have inside : ∃ here name, position = here ++ [name] ∧ IsFolder v.top here := by
      rcases ends with rfl | ⟨old,rfl⟩ <;> exact lies
    obtain ⟨same,after⟩ := setFileAt inside before content
    subst changed
    exact ⟨same,after,by rw [read,lookupWritten same before after ok ends]⟩
  unfold write at written
  unfold fileFor?
  split at written
  · rename_i position old found
    rw [found]
    exact ⟨position,rfl,outcome found (Or.inr ⟨old,rfl⟩) (Except.ok.inj written).symm⟩
  · rename_i position found
    rw [found]
    exact ⟨position,rfl,outcome found (Or.inl rfl) (Except.ok.inj written).symm⟩
  · contradiction
  · contradiction

end Volume
end ProjectSlice
