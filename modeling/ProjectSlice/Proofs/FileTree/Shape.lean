import ProjectSlice.Proofs.FileTree.Lookup

/-! Trees of one shape. Two trees have one shape when the same paths lead to files, to directories
and to links with the same targets in both. A walk decides by these three alone, so it takes the
same way through both trees. Main statement: every look-up in the two trees ends at the same
position or fails for the same reason. -/
namespace ProjectSlice

namespace Entry

inductive Kind where
  | file
  | link (target : Bytes)
  | folder
  deriving DecidableEq, Repr

def kind : Entry → Kind
  | .file _ => .file
  | .link target => .link target
  | .folder _ => .folder

theorem sameKind {a b : Option Entry} (same : a.map kind = b.map kind) :
    (a = none ∧ b = none) ∨
    (∃ content other, a = some (.file content) ∧ b = some (.file other)) ∨
    (∃ target, a = some (.link target) ∧ b = some (.link target)) ∨
    ∃ inside other, a = some (.folder inside) ∧ b = some (.folder other) := by
  rcases a with _ | a <;> rcases b with _ | b
  · exact Or.inl ⟨rfl,rfl⟩
  · contradiction
  · contradiction
  · cases a <;> cases b <;> simp_all [kind]

theorem fileOfKind {a b : Option Entry} (same : a.map kind = b.map kind) :
    (∃ content, a = some (.file content)) ↔ ∃ content, b = some (.file content) := by
  rcases sameKind same with ⟨rfl,rfl⟩ | ⟨_,_,rfl,rfl⟩ | ⟨_,rfl,rfl⟩ | ⟨_,_,rfl,rfl⟩ <;> simp

theorem linkOfKind {a b : Option Entry} (same : a.map kind = b.map kind) :
    (∃ target, a = some (.link target)) ↔ ∃ target, b = some (.link target) := by
  rcases sameKind same with ⟨rfl,rfl⟩ | ⟨_,_,rfl,rfl⟩ | ⟨_,rfl,rfl⟩ | ⟨_,_,rfl,rfl⟩ <;> simp

end Entry

inductive Found.Alike : Except Failure Found → Except Failure Found → Prop where
  | refused (failure : Failure) : Alike (.error failure) (.error failure)
  | file (position : Position) (content other : Bytes) :
    Alike (.ok (.file position content)) (.ok (.file position other))
  | folder (position : Position) (inside other : Listing) :
    Alike (.ok (.folder position inside)) (.ok (.folder position other))
  | absent (position : Position) : Alike (.ok (.absent position)) (.ok (.absent position))

namespace Volume

/-- Two file trees with the same paths, kinds of entries and targets of links. -/
structure SameShape (v w : Volume) : Prop where
  workFolder : v.workFolder = w.workFolder
  entries : ∀ position, (v.top.at? position).map Entry.kind = (w.top.at? position).map Entry.kind

section
variable {top other : Listing} {purpose : Purpose}
  (entries : ∀ position, (top.at? position).map Entry.kind = (other.at? position).map Entry.kind)
include entries

theorem walkStepsAlike {follow follow' : Position → List Bytes → Except Failure Found}
    (followed : ∀ here steps, Found.Alike (follow here steps) (follow' here steps))
    (here : Position) (steps : List Bytes) :
    Found.Alike (walkSteps top purpose follow here steps)
      (walkSteps other purpose follow' here steps) := by
  induction steps generalizing here with
  | nil =>
    rw [walkSteps,walkSteps]
    rcases Entry.sameKind (entries here) with ⟨a,b⟩ | ⟨_,_,a,b⟩ | ⟨_,a,b⟩ | ⟨_,_,a,b⟩ <;> rw [a,b]
    · exact .refused _
    · exact .refused _
    · exact .refused _
    · exact .folder _ _ _
  | cons step rest ih =>
    rw [walkSteps,walkSteps]
    by_cases stays : step = [] ∨ step = [Path.dot]
    · rw [if_pos stays,if_pos stays]
      exact ih here
    · rw [if_neg stays,if_neg stays]
      by_cases climbs : step = [Path.dot,Path.dot]
      · rw [if_pos climbs,if_pos climbs]
        exact ih here.dropLast
      · rw [if_neg climbs,if_neg climbs]
        by_cases asks : purpose = .creating ∧ rest = [[]]
        · rw [if_pos asks,if_pos asks]
          exact .refused _
        · rw [if_neg asks,if_neg asks]
          by_cases long : nameLimit < step.length ∨ isTooDeep purpose (here ++ [step]) = true
          · rw [if_pos long,if_pos long]
            exact .refused _
          · rw [if_neg long,if_neg long]
            rcases Entry.sameKind (entries (here ++ [step])) with
              ⟨a,b⟩ | ⟨_,_,a,b⟩ | ⟨_,a,b⟩ | ⟨_,_,a,b⟩ <;> rw [a,b] <;> dsimp only
            · split
              · exact .absent _
              · exact .refused _
            · split
              · exact .file _ _ _
              · exact .refused _
            · exact followed _ _
            · exact ih _

theorem walkAlike (links : Nat) (here : Position) (steps : List Bytes) :
    Found.Alike (walk top purpose links here steps) (walk other purpose links here steps) := by
  induction links generalizing here steps with
  | zero => exact walkStepsAlike entries (fun _ _ => .refused _) here steps
  | succ links ih => exact walkStepsAlike entries ih here steps

end

section
variable {v w : Volume} (shape : SameShape v w)
include shape

theorem lookupAlike (purpose : Purpose) (p : Path) :
    Found.Alike (v.lookup purpose p) (w.lookup purpose p) := by
  unfold lookup
  rw [shape.workFolder]
  split
  · exact .refused _
  · split
    · exact .refused _
    · split
      · exact .refused _
      · exact walkAlike shape.entries _ _ _

theorem isFileAlike (p : Path) : v.isFile p = w.isFile p := by
  have alike := lookupAlike shape .existing p
  unfold isFile find
  generalize v.lookup .existing p = a at alike
  generalize w.lookup .existing p = b at alike
  cases alike <;> rfl

end
end Volume

/-! Trees that are equal but for the contents of files have one shape. -/

def Listing.blank : Listing → Listing
  | .empty => .empty
  | .file name _ rest => .file name [] rest.blank
  | .link name target rest => .link name target rest.blank
  | .folder name inside rest => .folder name inside.blank rest.blank

def Entry.blank : Entry → Entry
  | .file _ => .file []
  | .link target => .link target
  | .folder inside => .folder inside.blank

namespace Listing

theorem blankAdd (name : Bytes) (entry : Entry) (rest : Listing) :
    (add name entry rest).blank = add name entry.blank rest.blank := by
  cases entry <;> rfl

theorem kindBlank (l : Listing) (position : Position) :
    (l.blank.at? position).map Entry.kind = (l.at? position).map Entry.kind := by
  induction l using inductionAdd generalizing position with
  | empty => rfl
  | add name entry rest ihInside ih =>
    cases position with
    | nil => rfl
    | cons n names =>
      rw [blankAdd,atAdd,atAdd]
      split
      · cases entry with
        | folder inside => exact ihInside inside rfl names
        | file content =>
          simp only [Entry.blank,Entry.at?]
          split <;> rfl
        | link target => rfl
      · exact ih (n::names)

end Listing

theorem Volume.shapeOfBlank {v w : Volume} (folder : v.workFolder = w.workFolder)
    (same : v.top.blank = w.top.blank) : SameShape v w := by
  refine ⟨folder,fun position => ?_⟩
  rw [← Listing.kindBlank v.top,same,Listing.kindBlank]

end ProjectSlice
