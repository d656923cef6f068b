import ProjectSlice.Proofs.FileTree.Names
import ProjectSlice.Proofs.Handle
import ProjectSlice.Proofs.Spelling

/-! Includes of a string alone. The string is read from two directories, and what it leads to counts
only where it is a regular file inside the root. Main statement: the target spells the first of the
two that counts, and leads back to it from the root; without one there is no target. -/
namespace ProjectSlice

namespace Path

def Spells (root p : Path) (text : Text) : Prop := ∃ (below : List Component) (parts : List Text),
  components p = components root ++ below ∧ below.map Component.bytes = parts.map ofText ∧
  text = Text.joined ['/'] parts

theorem innerRelative {parts : List Component} (nonempty : parts ≠ [])
    (inner : ∀ c ∈ parts, c.IsInner) :
    isAbsolute ([slash].intercalate (parts.map Component.bytes)) = false := by
  have split := splitOfInner nonempty inner
  obtain ⟨c,rest,rfl⟩ := List.exists_cons_of_ne_nil nonempty
  exact relativeOfSplit (bytesOfInner (inner c List.mem_cons_self)).2.1 split

end Path

namespace Volume
open ProjectSlice.Path (Component components ofText IsSegment slash dot)

def IsInside (v : Volume) (root p : Path) : Prop :=
  v.isFile p = true ∧ components root <+: components p
instance (v : Volume) (root p : Path) : Decidable (v.IsInside root p) := by
  unfold IsInside; infer_instance

/-- The components that a clean path has below a position. Below the top the first may be a climb. -/
structure Below (position : Position) (p : Path) (rest : List Component) : Prop where
  read : components p = components (pathOf position) ++ rest
  written : p = pathOf (position ++ rest.map Component.bytes)
  inner : ∀ c ∈ rest, c.IsInner
  named : position ≠ [] → ∀ c ∈ rest, IsSegment c.bytes

section
variable {position : Position} (valid : ∀ name ∈ position, Listing.ValidName name)
include valid

theorem cleanBelow {p : Path} (inside : components (pathOf position) <+: components p.clean) :
    ∃ rest, Below position p.clean rest := by
  obtain ⟨rest,whole⟩ := inside
  obtain ⟨front,begins,names,segments,shape⟩ := Path.cleanNames p
  obtain ⟨further,behind,rfl,among,known⟩ := Path.restShape begins (shape.symm.trans whole.symm)
  have climbs : further = [] ∨ position = [] ∧ further = [.up] := by
    rw [componentsPathOf valid] at known
    refine known.elim .inl fun begins => ?_
    rcases Path.frontsCut begins with none | empty | ⟨top,up⟩
    · exact .inl none
    · cases empty
    · exact .inr ⟨by simpa using top,up⟩
  have segments : ∀ name ∈ behind, IsSegment name := fun name mem => segments name (among mem)
  refine ⟨_,whole.symm,?_,?_,?_⟩
  · rw [Path.cleanOfComponents,← whole,componentsPathOf valid]
    simp [Path.ofComponents,pathOf,Function.comp_def,Component.bytes]
  · refine List.forall_mem_append.mpr ⟨?_,Path.innerOfNames segments⟩
    rcases climbs with rfl | ⟨_,rfl⟩ <;> simp [Component.IsInner]
  · intro further
    rcases climbs with rfl | ⟨top,_⟩
    · simpa [Component.bytes] using segments
    · contradiction

theorem joinBelowAgain {p : Path} {rest : List Component} (below : Below position p rest)
    (further : rest ≠ []) :
    (pathOf position).join ([slash].intercalate (rest.map Component.bytes)) = p := by
  have above : ∀ name ∈ position, IsSegment name := fun name mem => segmentOfValid (valid name mem)
  rw [joinBelow (mt List.map_eq_nil_iff.mp further) above (Path.innerRelative further below.inner)]
  exact below.written.symm

end

/- The names of a path that leads to a file are names of the tree. -/
theorem fileTexts {v : Volume} (texts : ∀ name ∈ v.top.everyName, ∃ text, name = ofText text)
    {p : Path} (file : v.isFile p = true) : ∀ c ∈ components p, ∃ text, c.bytes = ofText text := by
  intro c mem
  rcases Path.memComponents mem with rfl | rfl | inner
  · exact ⟨['/'],rfl⟩
  · exact ⟨['.'],rfl⟩
  · cases c with
    | root | here => contradiction
    | up => exact ⟨['.','.'],rfl⟩
    | name bytes =>
      obtain ⟨nonempty,notHere,notUp,_⟩ := inner
      have step : bytes ∈ steps p := by
        simp [steps,Path.nameSegment mem,nonempty]
      have known := fileStepsKnown file bytes step
      simp only [Known,nonempty,notHere,notUp,false_or] at known
      exact texts bytes known

end Volume

namespace IncludeSite
open ProjectSlice.Path (Component components ofText Spells slash)
open Sequence Text Volume

def candidate (literal : Text) (base : Path) : Path := (base.join (ofText literal)).clean

/-- A text that spells a path below a root, and leads back to it unless the path is the root. -/
def Reaches (root p : Path) (text : Text) : Prop :=
  Spells root p text ∧ (text ≠ [] → root.join (ofText text) = p)

section
variable {v : Volume} {position : Position} (valid : ∀ name ∈ position, Listing.ValidName name)
  {site : IncludeSite} (project : site.root = pathOf position) (files : site.isFile = v.isFile)
  (literal : Text)
include valid project files

theorem existingOutside {base : Path}
    (outside : ¬v.IsInside (pathOf position) (candidate literal base)) :
    existing? site literal base = none := by
  refine Option.eq_none_iff_forall_ne_some.mpr fun text found => outside ?_
  obtain ⟨file,found⟩ := Option.ite_none_right_eq_some.mp found
  refine ⟨files ▸ file,?_⟩
  rw [project] at found
  unfold Path.relativeTo? at found
  rw [componentsCleanPathOf valid,← componentsPathOf valid] at found
  split at found
  · contradiction
  · contradiction
  · rename_i rest _ after
    exact ⟨rest,(afterIff.mp after).symm⟩

theorem existingBelow {base : Path} (file : v.isFile (candidate literal base) = true)
    {rest : List Component} (below : Below position (candidate literal base) rest) :
    existing? site literal base = if rest = [] then none
      else some (joined ['/'] (rest.map fun c => Utf8.decodeLossy c.bytes)) := by
  have after : after? (components (pathOf position)) (components (candidate literal base)) =
      some rest := afterIff.mpr below.read
  have read : existing? site literal base =
      site.root.clean.relativeTo? (candidate literal base) := if_pos (files ▸ file)
  rw [read,project,Path.relativeTo?,componentsCleanPathOf valid,← componentsPathOf valid,after]
  cases rest <;> simp

/- Where the root is a regular file, a string has no target at all. -/
theorem existingNever (root : v.isFile (pathOf position) = true) (base : Path) :
    existing? site literal base = none := by
  by_cases inside : v.IsInside (pathOf position) (candidate literal base)
  · obtain ⟨rest,below⟩ : ∃ rest, Below position (candidate literal base) rest :=
      cleanBelow valid inside.2
    rw [existingBelow valid project files literal inside.1 below]
    split
    · rfl
    · rename_i further
      have top : position ≠ [] := by
        rintro rfl
        exact Bool.noConfusion ((topNoFile v).symm.trans root)
      have segments : ∀ name ∈ position ++ rest.map Component.bytes, Path.IsSegment name :=
        List.forall_mem_append.mpr ⟨fun name mem => segmentOfValid (valid name mem),
          List.forall_mem_map.mpr (below.named top)⟩
      have nothing := nothingBelow root (mt List.map_eq_nil_iff.mp further) segments
      rw [← below.written] at nothing
      exact Bool.noConfusion (nothing.symm.trans inside.1)
  · exact existingOutside valid project files literal inside

variable (texts : ∀ name ∈ v.top.everyName, ∃ text, name = ofText text)
include texts

theorem existingReaches {base : Path} (inside : v.IsInside (pathOf position) (candidate literal base)) :
    (candidate literal base = pathOf position ∧ existing? site literal base = none) ∨
    ∃ text, existing? site literal base = some text ∧
      Reaches (pathOf position) (candidate literal base) text := by
  obtain ⟨rest,below⟩ : ∃ rest, Below position (candidate literal base) rest :=
    cleanBelow valid inside.2
  have read := existingBelow valid project files literal inside.1 below
  by_cases top : rest = []
  · subst top
    exact .inl ⟨below.written.trans (congrArg pathOf (List.append_nil position)),read⟩
  · have spelled : rest.map Component.bytes =
        (rest.map fun c => Utf8.decodeLossy c.bytes).map ofText := by
      rw [List.map_map]
      refine List.map_congr_left fun c mem => ?_
      have among : c ∈ components (candidate literal base) := by simp [below.read,mem]
      exact (Path.rereadIff.mpr (fileTexts texts inside.1 c among)).symm
    refine .inr ⟨_,read.trans (if_neg top),⟨rest,_,below.read,spelled,rfl⟩,fun _ => ?_⟩
    rw [Path.ofTextJoined,← spelled]
    exact joinBelowAgain valid below top

/- The first candidate inside the root is found, unless it is the root, below which nothing is. -/
theorem firstReaches (bases : List Path) :
    ((bases.map (candidate literal)).find? (v.IsInside (pathOf position)) = none →
      bases.findSome? (existing? site literal) = none) ∧
    ∀ c, (bases.map (candidate literal)).find? (v.IsInside (pathOf position)) = some c →
      Reaches (pathOf position) c ((bases.findSome? (existing? site literal)).getD []) := by
  induction bases with
  | nil => simp
  | cons base bases ih =>
    by_cases inside : v.IsInside (pathOf position) (candidate literal base)
    · simp only [List.map_cons,List.find?_cons,inside,decide_true,List.findSome?_cons]
      refine ⟨nofun,?_⟩
      rintro _ ⟨⟩
      obtain ⟨same,none⟩ | ⟨text,found,reaches⟩ :=
        existingReaches valid project files literal texts inside
      · have never : bases.findSome? (existing? site literal) = .none :=
          List.findSome?_eq_none_iff.mpr fun base _ =>
            existingNever valid project files literal (same ▸ inside.1) base
        rw [none,never,same]
        exact ⟨⟨[],[],by simp,rfl,rfl⟩,by simp⟩
      · rw [found]
        exact reaches
    · have none := existingOutside valid project files literal inside
      simpa [List.find?_cons,inside,none] using ih

end

theorem quotedApart {q : Char} (opens : isQuote q = true) (site : IncludeSite) (t : Text) :
    applicationTarget? (q::t) = none ∧ folderTarget? site (q::t) = none := by
  simp only [isQuote,Bool.or_eq_true,beq_iff_eq] at opens
  rcases opens with rfl | rfl <;> exact ⟨rfl,rfl⟩

def IsPathLike (literal : Text) : Prop := ".php".toList <:+ literal ∨ '/' ∈ literal
instance (literal : Text) : Decidable (IsPathLike literal) := by
  unfold IsPathLike; infer_instance

theorem resolveQuoted {literal : Text} (plain : Uncomputed literal) (path : IsPathLike literal)
    {q p : Char} (opens : isQuote q = true) (closes : isQuote p = true) (site : IncludeSite) :
    site.resolve (q::(literal ++ [p])) =
      ([site.folder,site.root].findSome? (existing? site literal)).getD [] := by
  have nonempty : literal ≠ [] := by
    rintro rfl
    revert path
    decide
  obtain ⟨application,folder⟩ := quotedApart opens site (literal ++ [p])
  have alone : literalTarget? site (q::(literal ++ [p])) =
      [site.folder,site.root].findSome? (existing? site literal) := by
    simp only [literalTarget?,quotedRead nonempty plain opens closes,Option.bind_eq_bind,
      Option.bind_some]
    exact if_pos (by simpa only [Bool.or_eq_true,List.isSuffixOf_iff_suffix,List.contains_iff_mem])
  rw [resolve,target?,trimToQuote (quoteSolid opens) closes,application,folder,Option.none_or,
    Option.none_or,alone]

/-- A path-like string in quotes has as its target the first of its two candidates, from the
including file's directory and from the root, that is a regular file inside the root; from the root
the target leads to that file. Where neither counts there is no target. -/
theorem literalResolved {v : Volume} (sound : v.top.WellFormed)
    (texts : ∀ name ∈ v.top.everyName, ∃ text, name = ofText text) {given root : Path}
    (canonical : v.canonical given = .ok root) (folder : Path) {literal : Text}
    (plain : Uncomputed literal) (path : IsPathLike literal) {q p : Char}
    (opens : isQuote q = true) (closes : isQuote p = true) :
    let target := (IncludeSite.mk folder root v.isFile).resolve (q::(literal ++ [p]))
    let candidates := [folder,root].map fun base => (base.join (ofText literal)).clean
    (candidates.find? (v.IsInside root) = none → target = []) ∧
    ∀ c, candidates.find? (v.IsInside root) = some c → Spells root c target ∧
      (target ≠ [] → root.join (ofText target) = c ∧
        v.isFile (root.join (ofText target)) = true) := by
  intro target candidates
  obtain ⟨position,rfl,valid⟩ := canonicalPlace sound canonical
  let site : IncludeSite := ⟨folder,pathOf position,v.isFile⟩
  have project : site.root = pathOf position := rfl
  have resolved : target = ([folder,pathOf position].findSome? (existing? site literal)).getD [] :=
    resolveQuoted plain path opens closes site
  obtain ⟨missing,reached⟩ := firstReaches valid project rfl literal texts [folder,pathOf position]
  refine ⟨fun none => by rw [resolved,missing none,Option.getD_none],fun c found => ?_⟩
  obtain ⟨spells,leads⟩ := reached c found
  rw [← resolved] at spells leads
  refine ⟨spells,fun further => ⟨leads further,?_⟩⟩
  have counts := List.find?_some found
  obtain ⟨file,_⟩ : v.IsInside (pathOf position) c := of_decide_eq_true counts
  rwa [leads further]

/- Two shops: read from its own directory a string leads from one into the other, read from the root
it leads to a link to a regular file. -/
def market : Volume :=
  let name (s : String) : Bytes := ofText s.toList
  let cart : Listing := .file (name "cart.php") [] .empty
  let shop : Listing := .folder (name "app") .empty
    (.folder (name "lib") cart (.link (name "cart.php") (name "lib/cart.php") .empty))
  let other : Listing := .folder (name "shop") cart .empty
  ⟨.folder (name "srv") (.folder (name "shop") shop (.folder (name "srv") other .empty)) .empty,[]⟩

theorem cartFound :
    let root := ofText "/srv/shop".toList
    let folder := ofText "/srv/shop/app".toList
    let cart := ofText "/srv/shop/cart.php".toList
    let literal := "../../srv/shop/cart.php".toList
    let target := (IncludeSite.mk folder root market.isFile).resolve
      ('\x27'::(literal ++ ['\x27']))
    (market.top.WellFormed ∧ (∀ name ∈ market.top.everyName, ∃ text, name = ofText text) ∧
      market.canonical root = .ok root) ∧
    (Uncomputed literal ∧ IsPathLike literal) ∧
    (market.isFile (candidate literal folder) = true ∧
      ¬market.IsInside root (candidate literal folder) ∧ market.isFile (candidate literal root) = true) ∧
    target = "cart.php".toList ∧ Spells root cart target ∧ root.join (ofText target) = cart ∧
    (IncludeSite.mk folder root market.isFile).resolve "'lib/none.php'".toList = [] := by
  intro root folder cart literal target
  have sound : market.top.WellFormed := by decide
  have texts : ∀ name ∈ market.top.everyName, ∃ text, name = ofText text := by
    have same : ∀ name ∈ market.top.everyName, Path.reread name = name := by decide +kernel
    exact fun name mem => Path.rereadIff.mp (same name mem)
  have canonical : market.canonical root = .ok root := by decide +kernel
  have plain : Uncomputed literal := by decide
  have path : IsPathLike literal := by decide
  have outside : market.isFile (candidate literal folder) = true ∧
      ¬market.IsInside root (candidate literal folder) ∧
      market.isFile (candidate literal root) = true := by decide +kernel
  have named : target = "cart.php".toList := by decide +kernel
  obtain ⟨_,reached⟩ := literalResolved sound texts canonical folder plain path
    (q := '\x27') (p := '\x27') rfl rfl
  obtain ⟨spells,leads⟩ := reached cart (by decide +kernel)
  have plainNone : Uncomputed "lib/none.php".toList := by decide
  obtain ⟨missing,_⟩ := literalResolved sound texts canonical folder plainNone (by decide)
    (q := '\x27') (p := '\x27') rfl rfl
  have further : target ≠ [] := named ▸ by decide
  exact ⟨⟨sound,texts,canonical⟩,⟨plain,path⟩,outside,named,spells,(leads further).1,
    missing (by decide +kernel)⟩

end IncludeSite
end ProjectSlice
