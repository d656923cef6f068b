import ProjectSlice.Proofs.Search
import ProjectSlice.Proofs.Words
import ProjectSlice.Reference.Pattern

/-! Lines that create an object. A class word has at least two characters, so a capital alone is a
name that a declaration can have but that is never read behind `new`. Main statement: the names
that a line reads which does nothing but create one object. -/
namespace ProjectSlice.ReferenceKind
open Sequence Text

def IsCapitalized (name : Text) : Prop :=
  ∃ c word, name = c::word ∧ isCapital c = true ∧ ∀ d ∈ word, isWord d = true

theorem wordOfCapital {c : Char} (capital : isCapital c = true) : isWord c = true := by
  have bounds : 'A'.val ≤ c.val ∧ c.val ≤ 'Z'.val := by
    simpa [isCapital,Char.le_def] using capital
  have ascii : c.toNat ≤ 90 := UInt32.le_iff_toNat_le.mp bounds.2
  have upper : c.isUpper = true := decide_eq_true bounds
  have letter : c.isAlphanum = true := by
    show ((c.isUpper || c.isLower) || c.isDigit) = true
    rw [upper,Bool.true_or,Bool.true_or]
  exact wordOfAlphanum (Nat.lt_of_le_of_lt ascii (by decide)) letter

theorem newQuiet (before : Option Char) {c : Char} (other : c ≠ 'n') (t : Text) :
    behindKeyword "new".toList before (c::t) = none := by
  have absent : keyword? "new".toList before (c::t) = none := by
    unfold keyword?
    split
    · exact if_neg (Ne.symm other)
    · rfl
  rw [behindKeyword,absent]
  rfl

theorem notInBlanks {blanks : Text} (blank : ∀ c ∈ blanks, isBlank c = true) : 'n' ∉ blanks :=
  fun mem => Bool.noConfusion (blank _ mem)

/- The keyword begins nowhere in a text without its first letter. -/
theorem searchPastOpening {opening : Text} (free : 'n' ∉ opening) (room : Nat)
    (before : Option Char) (t : Text) :
    searchFrom (behindKeyword "new".toList) (opening.length + room) before (opening ++ t) =
      searchFrom (behindKeyword "new".toList) room (opening.getLast?.or before) t := by
  refine searchFromQuiet (fun before c inner inside => newQuiet before ?_ (inner ++ t)) room before
  rintro rfl
  exact free (inside.subset List.mem_cons_self)

theorem nothingWithout {t : Text} (free : 'n' ∉ t) (room : Nat) (before : Option Char) :
    searchFrom (behindKeyword "new".toList) (t.length + room) before t = [] := by
  have passed := searchPastOpening free room before []
  rw [List.append_nil] at passed
  rw [passed]
  cases room <;> rfl

theorem classWordAppend {name rest : Text} (capitalized : IsCapitalized name)
    (stop : rest.head?.any isWord = false) :
    classWord? (name ++ rest) = if 2 ≤ name.length then some (name,rest) else none := by
  obtain ⟨c,word,rfl,capital,all⟩ := capitalized
  have whole : ∀ d ∈ c::word, isWord d = true :=
    List.forall_mem_cons.mpr ⟨wordOfCapital capital,all⟩
  rw [classWord?,spanWordAppend whole stop]
  cases word with
  | nil => rfl
  | cons d word => simp [capital]

theorem readsNew {name rest : Text} (capitalized : IsCapitalized name)
    (stop : rest.head?.any isWord = false) :
    behindKeyword "new".toList (some ' ') ("new ".toList ++ (name ++ rest)) =
      if 2 ≤ name.length then some (name,rest) else none := by
  have solid : (name ++ rest).dropWhile isBlank = name ++ rest := by
    obtain ⟨c,word,rfl,capital,_⟩ := capitalized
    exact List.dropWhile_cons_of_neg (by simp [wordNotBlank (wordOfCapital capital)])
  rw [← classWordAppend capitalized stop]
  show classWord? ((name ++ rest).dropWhile isBlank) = _
  rw [solid]

/- A capital alone is no class word, so there the search goes on inside the keyword. -/
theorem searchAtNew {name rest : Text} (capitalized : IsCapitalized name)
    (stop : rest.head?.any isWord = false) (free : 'n' ∉ rest) :
    searchFrom (behindKeyword "new".toList) ("new ".toList ++ (name ++ rest)).length (some ' ')
      ("new ".toList ++ (name ++ rest)) = if 2 ≤ name.length then [name] else [] := by
  have step : "new ".toList ++ (name ++ rest) = 'n'::("ew ".toList ++ (name ++ rest)) := rfl
  rw [step,List.length_cons,searchFrom,← step,readsNew capitalized stop]
  by_cases long : 2 ≤ name.length
  · have room : ("ew ".toList ++ (name ++ rest)).length = rest.length + (name.length + 3) := by
      have three : "ew ".toList.length = 3 := rfl
      simp only [List.length_append]
      omega
    rw [if_pos long,if_pos long,room]
    exact congrArg (name::·) (nothingWithout free _ none)
  · have inside : 'n' ∉ "ew ".toList ++ (name ++ rest) := by
      obtain ⟨c,word,rfl,capital,_⟩ := capitalized
      cases word with
      | nil =>
        have other : 'n' ≠ c := by
          rintro rfl
          exact Bool.noConfusion capital
        simp [other,free]
      | cons d word => exact absurd (Nat.le_add_left 2 word.length) long
    rw [if_neg long,if_neg long]
    exact nothingWithout inside 0 (some 'n')

/- The keyword stands behind a blank, and no other one begins in front of it or behind the name. -/
theorem newNames {name line : Text} (capitalized : IsCapitalized name)
    (whole : trim line = "$x = new ".toList ++ name ++ "();".toList) :
    names line .instantiation = if 2 ≤ name.length then [name] else [] := by
  obtain ⟨front,back,shape,blankFront,blankBack⟩ := trimInside line
  have apart : line = (front ++ "$x = ".toList) ++
      ("new ".toList ++ (name ++ ("();".toList ++ back))) := by
    have opening : "$x = new ".toList = "$x = ".toList ++ "new ".toList := rfl
    rw [shape,whole,opening]
    simp only [List.append_assoc]
  have before : 'n' ∉ front ++ "$x = ".toList := by simp [notInBlanks blankFront]
  have behind : 'n' ∉ "();".toList ++ back := by simp [notInBlanks blankBack]
  have last : (front ++ "$x = ".toList).getLast? = some ' ' := by simp
  have passed := searchPastOpening before
    ("new ".toList ++ (name ++ ("();".toList ++ back))).length none
    ("new ".toList ++ (name ++ ("();".toList ++ back)))
  rw [last,← List.length_append,← apart] at passed
  exact passed.trans (searchAtNew capitalized rfl behind)

end ProjectSlice.ReferenceKind
