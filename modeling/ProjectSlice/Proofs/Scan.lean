import Mathlib.Data.List.TakeDrop
import ProjectSlice.Proofs.FileTree.Lookup
import ProjectSlice.Proofs.Utf8.RoundTrip
import ProjectSlice.Scan

/-! Scanned trees. A walk answers the paths of names that lead through directories it may enter to
a source file, each once; as every directory is walked in the order of its names, the paths come
in ascending order, name by name. Main statement: a scan lists exactly the source files below its
root, and their real paths ascend strictly. -/
namespace ProjectSlice.Scan
open ProjectSlice.Text
open ProjectSlice.Path (dot)

def HasSourceExtension (name : Bytes) : Prop :=
  ∃ stem extension, stem ≠ [] ∧ lower extension = sourceExtension ∧
    name = stem ++ dot::Utf8.encode extension

theorem asciiOfLower {c : Char} (ascii : c.toLower.toNat < 0x80) : c.toNat < 0x80 := by
  by_cases capital : c.val ≥ 'A'.val ∧ c.val ≤ 'Z'.val
  · have last : c.val.toNat ≤ 'Z'.val.toNat := capital.2
    exact Nat.lt_of_le_of_lt last (by decide)
  · have small : c.toLower = c := dif_neg capital
    rwa [small] at ascii

theorem charOfExtension {extension : Text} (same : lower extension = sourceExtension) {c : Char}
    (mem : c ∈ extension) : c.toLower ∈ sourceExtension := by
  rw [← same]
  exact List.mem_map_of_mem mem

theorem extensionAscii {extension : Text} (same : lower extension = sourceExtension) :
    Utf8.IsAscii extension := by
  have known : (sourceExtension.all fun d => d.toNat < 0x80) = true := by decide
  intro c mem
  have small := List.all_eq_true.mp known _ (charOfExtension same mem)
  exact asciiOfLower (of_decide_eq_true small)

theorem extensionWithoutDot {extension : Text} (same : lower extension = sourceExtension) :
    dot ∉ Utf8.encode extension := by
  intro mem
  have inside : '.' ∈ extension := Utf8.charOfByte (by decide) mem
  have absent : ('.' : Char).toLower ∉ sourceExtension := by decide
  exact absent (charOfExtension same inside)

theorem isSourceNameIff {name : Bytes} : isSourceName name = true ↔ HasSourceExtension name := by
  unfold isSourceName
  rw [List.span_eq_takeWhile_dropWhile]
  constructor
  · intro source
    split at source
    · rename_i extension d s stem parts
      obtain ⟨front,back⟩ := Prod.mk.inj parts
      have whole : name.reverse = extension ++ d::s::stem := by
        rw [← front,← back,List.takeWhile_append_dropWhile]
      have stop : d = dot := by
        have fails := List.head?_dropWhile_not (· != dot) name.reverse
        rw [back] at fails
        simpa using fails
      have same : lower (Utf8.decodeLossy extension.reverse) = sourceExtension := by
        simpa using source
      refine ⟨(s::stem).reverse,_,by simp,same,?_⟩
      rw [Utf8.encodeOfAscii (extensionAscii same),← List.reverse_reverse name,whole,stop]
      simp
    · contradiction
  · rintro ⟨stem,extension,nonempty,same,rfl⟩
    have others : ∀ b ∈ (Utf8.encode extension).reverse, (b != dot) = true := by
      intro b mem
      rw [bne_iff_ne]
      rintro rfl
      exact extensionWithoutDot same (List.mem_reverse.mp mem)
    rw [List.reverse_append,List.reverse_cons,List.append_assoc,
      List.takeWhile_append_of_pos others,List.dropWhile_append_of_pos others]
    obtain ⟨s,rest,turned⟩ := List.exists_cons_of_ne_nil (mt List.reverse_eq_nil_iff.mp nonempty)
    rw [turned]
    simp [Utf8.decodeEncode,same]

def walkEntry (isFile : Position → Bool) (name : Bytes) : Entry → List Position
  | .file _ => if isSourceName name then [[name]] else []
  | .link _ => if isSourceName name && isFile [name] then [[name]] else []
  | .folder inside =>
    if excludedFolders.contains name then []
    else (walk (fun below => isFile (name::below)) [] inside).map (name :: ·)

theorem walkUnder (isFile : Position → Bool) (name : Bytes) (here : Position) (l : Listing) :
    walk isFile (name::here) l =
      (walk (fun below => isFile (name::below)) here l).map (name :: ·) := by
  induction l generalizing here with
  | empty => rfl
  | file n content rest ih =>
    simp only [walk,ih,List.map_append]
    split <;> rfl
  | link n target rest ih =>
    simp only [walk,ih,List.map_append,List.cons_append]
    split <;> rfl
  | folder n inside rest ihInside ih =>
    simp only [walk,ih,ihInside,List.map_append,List.cons_append]
    split <;> rfl

theorem walkAdd (isFile : Position → Bool) (name : Bytes) (entry : Entry) (rest : Listing) :
    walk isFile [] (.add name entry rest) = walkEntry isFile name entry ++ walk isFile [] rest := by
  cases entry with
  | file content | link target => rfl
  | folder inside =>
    rw [Listing.add,walk,List.nil_append,walkUnder]
    rfl

structure Listed (isFile : Position → Bool) (found : Option Entry) (below : Position) : Prop where
  folders : ∀ name ∈ below.dropLast, name ∉ excludedFolders
  named : ∃ name, below.getLast? = some name ∧ isSourceName name = true
  entry : (∃ content, found = some (.file content)) ∨
    (∃ target, found = some (.link target)) ∧ isFile below = true

theorem notListed {isFile : Position → Bool} {found : Option Entry} {below : Position}
    (folder : ∀ entry, found = some entry → ∃ inside, entry = .folder inside) :
    ¬Listed isFile found below := by
  rintro ⟨_,_,⟨content,same⟩ | ⟨⟨target,same⟩,_⟩⟩
  · obtain ⟨_,other⟩ := folder _ same
    cases other
  · obtain ⟨_,other⟩ := folder _ same
    cases other

theorem listedFolder {isFile : Position → Bool} {inside : Listing} {below : Position} :
    ¬Listed isFile (some (.folder inside)) below :=
  notListed fun _ same => ⟨inside,(Option.some.inj same).symm⟩

theorem listedNone {isFile : Position → Bool} {below : Position} : ¬Listed isFile none below :=
  notListed nofun

theorem listedCons {isFile : Position → Bool} {found : Option Entry} {name : Bytes}
    {names : List Bytes} (further : names ≠ []) :
    Listed isFile found (name::names) ↔
      name ∉ excludedFolders ∧ Listed (fun below => isFile (name::below)) found names := by
  have front : (name::names).dropLast = name::names.dropLast :=
    List.dropLast_cons_of_ne_nil further
  have last : (name::names).getLast? = names.getLast? := by
    obtain ⟨n,rest,rfl⟩ := List.exists_cons_of_ne_nil further
    exact List.getLast?_cons_cons
  constructor
  · rintro ⟨folders,named,entry⟩
    rw [front,List.forall_mem_cons] at folders
    rw [last] at named
    exact ⟨folders.1,folders.2,named,entry⟩
  · rintro ⟨entered,folders,named,entry⟩
    refine ⟨?_,?_,entry⟩
    · rw [front,List.forall_mem_cons]
      exact ⟨entered,folders⟩
    · rwa [last]

theorem listedSingle {isFile : Position → Bool} {found : Option Entry} {name : Bytes} :
    Listed isFile found [name] ↔ isSourceName name = true ∧
      ((∃ content, found = some (.file content)) ∨
        (∃ target, found = some (.link target)) ∧ isFile [name] = true) := by
  constructor
  · rintro ⟨_,⟨n,last,source⟩,entry⟩
    cases Option.some.inj last
    exact ⟨source,entry⟩
  · rintro ⟨source,entry⟩
    exact ⟨nofun,⟨name,rfl,source⟩,entry⟩

theorem memWalkEntry {isFile : Position → Bool} {name : Bytes} {entry : Entry}
    (inner : ∀ inside, entry = .folder inside → ∀ (isFile : Position → Bool) (below : Position),
      below ∈ walk isFile [] inside ↔ Listed isFile (inside.at? below) below)
    {names : List Bytes} :
    name::names ∈ walkEntry isFile name entry ↔ Listed isFile (entry.at? names) (name::names) := by
  cases entry with
  | file content | link target =>
    by_cases last : names = []
    · subst last
      simp [walkEntry,Entry.at?,listedSingle]
    · simp [walkEntry,Entry.at?,last,listedNone]
  | folder inside =>
    have here : ¬Listed (fun below => isFile (name::below)) (inside.at? []) [] := listedFolder
    rw [Entry.at?]
    by_cases last : names = []
    · subst last
      have there : ¬Listed isFile (inside.at? []) [name] := listedFolder
      simp [walkEntry,inner inside rfl,here,there]
    · rw [listedCons last,← inner inside rfl]
      simp [walkEntry]

theorem walkEntryHead {isFile : Position → Bool} {name : Bytes} {entry : Entry} {below : Position}
    (mem : below ∈ walkEntry isFile name entry) : ∃ names, below = name::names := by
  cases entry with
  | file content | link target =>
    rw [walkEntry] at mem
    split at mem
    · exact ⟨[],List.mem_singleton.mp mem⟩
    · contradiction
  | folder inside =>
    rw [walkEntry] at mem
    split at mem
    · contradiction
    · obtain ⟨names,_,same⟩ := List.mem_map.mp mem
      exact ⟨names,same.symm⟩

theorem walkHead {isFile : Position → Bool} {l : Listing} {below : Position}
    (mem : below ∈ walk isFile [] l) : ∃ name ∈ l.names, ∃ names, below = name::names := by
  induction l using Listing.inductionAdd with
  | empty => contradiction
  | add name entry rest _ ih =>
    rw [walkAdd,List.mem_append] at mem
    rw [Listing.namesAdd]
    rcases mem with first | later
    · exact ⟨name,List.mem_cons_self,walkEntryHead first⟩
    · obtain ⟨n,among,names,same⟩ := ih later
      exact ⟨n,List.mem_cons_of_mem _ among,names,same⟩

theorem memWalk {l : Listing} (ascending : l.Ascending) (isFile : Position → Bool)
    (below : Position) : below ∈ walk isFile [] l ↔ Listed isFile (l.at? below) below := by
  induction l using Listing.inductionAdd generalizing isFile below with
  | empty =>
    cases below with
    | nil => exact iff_of_false nofun listedFolder
    | cons n names => exact iff_of_false nofun listedNone
  | add name entry rest ihInside ih =>
    obtain ⟨greater,ascendingEntry,ascendingRest⟩ := Listing.ascendingAdd.mp ascending
    rw [walkAdd,List.mem_append]
    cases below with
    | nil =>
      refine iff_of_false ?_ listedFolder
      rintro (mem | mem)
      · obtain ⟨_,same⟩ := walkEntryHead mem
        cases same
      · obtain ⟨_,_,_,same⟩ := walkHead mem
        cases same
    | cons n names =>
      rw [Listing.atAdd]
      by_cases same : name = n
      · subst same
        have absent : name::names ∉ walk isFile [] rest := by
          intro mem
          obtain ⟨n,among,_,same⟩ := walkHead mem
          cases same
          exact List.lt_irrefl _ (greater name among)
        have inner : ∀ inside, entry = .folder inside →
            ∀ (isFile : Position → Bool) (below : Position),
              below ∈ walk isFile [] inside ↔ Listed isFile (inside.at? below) below := by
          intro inside folder
          subst folder
          exact ihInside inside rfl ascendingEntry
        rw [if_pos rfl,or_iff_left absent]
        exact memWalkEntry inner
      · have absent : n::names ∉ walkEntry isFile name entry := by
          intro mem
          obtain ⟨_,other⟩ := walkEntryHead mem
          cases other
          exact same rfl
        rw [if_neg same,or_iff_right absent]
        exact ih ascendingRest isFile (n::names)

theorem orderedUnder {name : Bytes} {positions : List Position}
    (ordered : positions.Pairwise (· < ·)) : (positions.map (name :: ·)).Pairwise (· < ·) :=
  ordered.map _ fun _ _ less => List.cons_lt_cons_iff.mpr (Or.inr ⟨rfl,less⟩)

theorem walkOrdered {l : Listing} (ascending : l.Ascending) (isFile : Position → Bool) :
    (walk isFile [] l).Pairwise (· < ·) := by
  induction l using Listing.inductionAdd generalizing isFile with
  | empty => exact List.Pairwise.nil
  | add name entry rest ihInside ih =>
    obtain ⟨greater,ascendingEntry,ascendingRest⟩ := Listing.ascendingAdd.mp ascending
    rw [walkAdd,List.pairwise_append]
    refine ⟨?_,ih ascendingRest isFile,?_⟩
    · cases entry with
      | file content | link target =>
        rw [walkEntry]
        split
        · exact List.pairwise_singleton _ _
        · exact List.Pairwise.nil
      | folder inside =>
        rw [walkEntry]
        split
        · exact List.Pairwise.nil
        · exact orderedUnder (ihInside inside rfl ascendingEntry _)
    · intro p first q later
      obtain ⟨names,rfl⟩ := walkEntryHead first
      obtain ⟨n,among,names',rfl⟩ := walkHead later
      exact List.cons_lt_cons_iff.mpr (Or.inl (greater n among))

/-- Whether the last of the links that begin with a path stands for a regular file. -/
def EndsAtFile (v : Volume) (p : Path) : Prop :=
  ∃ position content, v.find p = .ok (.file position content) ∧
    v.top.at? position = some (.file content)

/-- A source file at a path of names below a root: every name but the last is that of a directory
that may be entered, and the last one is that of a regular file or of a link to one. -/
structure IsSource (v : Volume) (root below : Position) : Prop where
  folders : ∀ name ∈ below.dropLast, name ∉ excludedFolders
  named : ∃ name, below.getLast? = some name ∧ HasSourceExtension name
  entry : (∃ content, v.top.at? (root ++ below) = some (.file content)) ∨
    (∃ target, v.top.at? (root ++ below) = some (.link target)) ∧
      EndsAtFile v (Volume.pathOf (root ++ below))

theorem isSourceIff {v : Volume} {root below : Position} {inside : Listing}
    (sound : inside.WellFormed) (there : v.top.at? root = some (.folder inside)) :
    IsSource v root below ↔
      Listed (fun below => v.isFile (Volume.pathOf (root ++ below)))
        (inside.sorted.at? below) below := by
  have entry : v.top.at? (root ++ below) = inside.at? below := Listing.atAppend there below
  rw [Listing.atSorted sound]
  have file (content : Bytes) : (inside.at? below).map Entry.sorted = some (.file content) ↔
    inside.at? below = some (.file content) := Entry.sortedIff nofun
  have link (target : Bytes) : (inside.at? below).map Entry.sorted = some (.link target) ↔
    inside.at? below = some (.link target) := Entry.sortedIff nofun
  constructor
  · rintro ⟨folders,⟨name,last,source⟩,kind⟩
    refine ⟨folders,⟨name,last,isSourceNameIff.mpr source⟩,?_⟩
    simpa only [file,link,entry,Volume.isFileIff,EndsAtFile] using kind
  · rintro ⟨folders,⟨name,last,source⟩,kind⟩
    refine ⟨folders,⟨name,last,isSourceNameIff.mp source⟩,?_⟩
    simpa only [file,link,entry,Volume.isFileIff,EndsAtFile] using kind

def realPath (file : SourceFile) : List Bytes :=
  (Path.components file.absolute).map Path.Component.bytes

theorem realPathAt {root below : Position}
    (valid : ∀ name ∈ root ++ below, Listing.ValidName name) :
    realPath (fileAt root below) = [Path.slash]::(root ++ below) := by
  rw [realPath,fileAt,Volume.componentsPathOf valid,List.map_cons,List.map_map]
  exact congrArg _ (List.map_id _)

theorem realPathsOrdered {root : Position} {positions : List Position}
    (valid : ∀ below ∈ positions, ∀ name ∈ root ++ below, Listing.ValidName name)
    (ordered : positions.Pairwise (· < ·)) :
    ((positions.map (fileAt root)).map realPath).Pairwise (· < ·) := by
  rw [List.map_map,List.pairwise_map]
  refine ordered.imp_of_mem fun {p q} memP memQ less => ?_
  rw [Function.comp_apply,Function.comp_apply,realPathAt (valid p memP),realPathAt (valid q memQ)]
  exact List.cons_lt_cons_iff.mpr (Or.inr ⟨rfl,List.append_left_lt less⟩)

theorem sourceNames {v : Volume} {root below : Position} (sound : v.top.WellFormed)
    (source : IsSource v root below) :
    below ≠ [] ∧ ∀ name ∈ root ++ below, Listing.ValidName name := by
  obtain ⟨_,⟨name,last,_⟩,kind⟩ := source
  constructor
  · rintro rfl
    cases last
  · rcases kind with ⟨content,entry⟩ | ⟨⟨target,entry⟩,_⟩
    · exact (Listing.wellFormedAt sound entry).1
    · exact (Listing.wellFormedAt sound entry).1

theorem runPositions {v : Volume} {root : Path} {found : Scan} (sound : v.top.WellFormed)
    (ok : run v root = .ok found) :
    ∃ (position : Position) (inside : Listing) (positions : List Position),
      v.resolve root = .ok (.folder position inside) ∧
      found = ⟨Volume.pathOf position,positions.map (fileAt position)⟩ ∧
      positions.Pairwise (· < ·) ∧ ∀ below, below ∈ positions ↔ IsSource v position below := by
  unfold run at ok
  split at ok
  · contradiction
  · rename_i position inside there
    cases ok
    have stands : v.top.at? position = some (.folder inside) := Volume.lookupStands there
    have soundInside : inside.WellFormed := (Listing.wellFormedAt sound stands).2
    have ascending : inside.sorted.Ascending := Listing.sortedAscending soundInside
    refine ⟨position,inside,_,there,rfl,walkOrdered ascending _,fun below => ?_⟩
    rw [isSourceIff soundInside stands]
    exact memWalk ascending _ below
  · contradiction
  · contradiction

theorem runPlaces {v : Volume} {root : Path} {found : Scan} (sound : v.top.WellFormed)
    (ok : run v root = .ok found) :
    ∃ position : Position, v.canonical root = .ok (Volume.pathOf position) ∧
      found.root = Volume.pathOf position ∧ (∀ name ∈ position, Listing.ValidName name) ∧
      ∀ file ∈ found.files, ∃ below, IsSource v position below ∧ file = fileAt position below := by
  obtain ⟨position,inside,positions,there,rfl,_,exact⟩ := runPositions sound ok
  have stands : v.top.at? position = some (.folder inside) := Volume.lookupStands there
  refine ⟨position,by rw [Volume.canonical,there],rfl,(Listing.wellFormedAt sound stands).1,?_⟩
  intro file mem
  obtain ⟨below,among,rfl⟩ := List.mem_map.mp mem
  exact ⟨below,(exact below).mp among,rfl⟩

/- The walk follows no link and enters no directory with an excluded name, and the root's own name
does not matter: `IsSource` looks only at the names below it. -/
theorem runListsSources {v : Volume} {root : Path} {position : Position} {inside : Listing}
    (sound : v.top.WellFormed) (there : v.resolve root = .ok (.folder position inside)) :
    ∃ positions : List Position,
      run v root = .ok ⟨Volume.pathOf position,positions.map (fileAt position)⟩ ∧
      (∀ below, below ∈ positions ↔ IsSource v position below) ∧
      ((positions.map (fileAt position)).map realPath).Pairwise (· < ·) := by
  obtain ⟨_,ok⟩ : ∃ found, run v root = .ok found := ⟨_,by rw [run,there]⟩
  obtain ⟨_,_,positions,led,rfl,ordered,exact⟩ := runPositions sound ok
  cases there.symm.trans led
  refine ⟨positions,ok,exact,realPathsOrdered (fun below mem => ?_) ordered⟩
  exact (sourceNames sound ((exact below).mp mem)).2

/- Inside a root with an excluded name: a directory, a file that is sorted behind all that is below
it, a link to a file, a link to a directory and a directory that is left out. -/
def linkedProject : Volume :=
  let name (s : String) : Bytes := Path.ofText s.toList
  let library : Listing := .file (name "b.php") [] .empty
  let project : Listing := .folder (name "lib") library (.file (name "lib-a.php") []
    (.link (name "B.PHP") (name "lib/b.php") (.link (name "all.php") (name "lib")
      (.folder (name "vendor") library .empty))))
  ⟨.folder (name "vendor") project (.link (name "work") (name "vendor") .empty),[]⟩

theorem linkedProjectListsSources : linkedProject.top.WellFormed ∧
    ∃ inside, linkedProject.resolve (Path.ofText "/work".toList) =
        .ok (.folder [Path.ofText "vendor".toList] inside) ∧
      ∃ positions : List Position,
        run linkedProject (Path.ofText "/work".toList) =
          .ok ⟨Path.ofText "/vendor".toList,positions.map (fileAt [Path.ofText "vendor".toList])⟩ ∧
        (∀ below, below ∈ positions ↔ IsSource linkedProject [Path.ofText "vendor".toList] below) ∧
        ((positions.map (fileAt [Path.ofText "vendor".toList])).map realPath).Pairwise (· < ·) := by
  have sound : linkedProject.top.WellFormed := by decide
  have there : linkedProject.resolve (Path.ofText "/work".toList) =
      .ok (.folder [Path.ofText "vendor".toList] _) := rfl
  exact ⟨sound,_,there,runListsSources sound there⟩

end ProjectSlice.Scan
