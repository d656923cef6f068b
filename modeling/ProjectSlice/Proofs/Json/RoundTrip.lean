import ProjectSlice.Proofs.Json.Scalar

/-! JSON values read back from their texts. A value is read from the front of a text, with anything
behind it that cannot continue it, so the members of a container are read one by one, whatever blanks
the layout puts in front of them. Main statements: a value whose numbers are natural is read back
from both layouts, and its compact text is one line. -/
namespace ProjectSlice.Json
open Text

def Spaces (gap : Text) : Prop := ∀ c ∈ gap, isSpace c = true

theorem skipSpaces {gap : Text} (spaces : Spaces gap) (t : Text) :
    skipSpace (gap ++ t) = skipSpace t := List.dropWhile_append_of_pos spaces

theorem skipNothing {c : Char} (solid : isSpace c = false) (t : Text) :
    skipSpace (c::t) = c::t := List.dropWhile_cons_of_neg (Bool.eq_false_iff.mp solid)

theorem lineBreakSpaces (layout : Layout) (depth : Nat) : Spaces (layout.lineBreak depth) := by
  intro c mem
  cases layout with
  | compact => contradiction
  | pretty =>
    rcases List.mem_cons.mp mem with rfl | mem
    · rfl
    · rw [List.eq_of_mem_replicate mem]
      rfl

theorem endsSpaces {gap : Text} (spaces : Spaces gap) {rest : Text} (ends : Ends rest) :
    Ends (gap ++ rest) := by
  cases gap with
  | nil => exact ends
  | cons c gap =>
    have blank : isSpace c = true := spaces c List.mem_cons_self
    simp [Ends,endsValue,blank]

/- The members of a container behind the first one. -/
def followers {α : Type} (lead : Text) (written : α → Text) (xs : List α) : Text :=
  xs.flatMap fun x => ','::(lead ++ written x)

theorem itemsFollow (layout : Layout) (depth : Nat) (items : List Json) :
    writeItems layout depth items =
      followers (layout.lineBreak depth) (writeAt layout depth) items := by
  induction items with
  | nil => rfl
  | cons item items ih => simp [writeItems,followers,ih]

def writeField (layout : Layout) (depth : Nat) (field : Text × Json) : Text :=
  quote field.1 ++ (layout.colon ++ writeAt layout depth field.2)

theorem fieldsFollow (layout : Layout) (depth : Nat) (fields : List (Text × Json)) :
    writeFields layout depth fields =
      followers (layout.lineBreak depth) (writeField layout depth) fields := by
  induction fields with
  | nil => rfl
  | cons field fields ih => simp [writeFields,followers,writeField,ih]

/- What a container with at least one member has behind its opening mark. -/
def inside {α : Type} (layout : Layout) (place : Nat) (written : α → Text) (closing : Char) (x : α)
    (xs : List α) : Text :=
  layout.lineBreak (place + 1) ++ (written x ++
    (followers (layout.lineBreak (place + 1)) written xs ++ (layout.lineBreak place ++ [closing])))

theorem arrayInside (layout : Layout) (place : Nat) (item : Json) (items : List Json) :
    writeAt layout place (.array (item::items)) =
      '['::inside layout place (writeAt layout (place + 1)) ']' item items := by
  simp [writeAt,itemsFollow,inside]

theorem objectInside (layout : Layout) (place : Nat) (field : Text × Json)
    (fields : List (Text × Json)) :
    writeAt layout place (.object (field::fields)) =
      '\x7b'::inside layout place (writeField layout (place + 1)) '\x7d' field fields := by
  simp [writeAt,fieldsFollow,writeField,inside]

section
variable {α : Type} (layout : Layout) (place : Nat) (written : α → Text) (closing : Char)

theorem insideOne (x : α) : inside layout place written closing x [] =
    layout.lineBreak (place + 1) ++ (written x ++ (layout.lineBreak place ++ [closing])) := rfl

theorem insideMore (x y : α) (ys : List α) : inside layout place written closing x (y::ys) =
    layout.lineBreak (place + 1) ++ (written x ++ ','::inside layout place written closing y ys) := by
  simp [inside,followers]

theorem insideLength (x : α) (xs : List α) :
    xs.length < (inside layout place written closing x xs).length ∧
    ∀ y ∈ x::xs, (written y).length < (inside layout place written closing x xs).length := by
  induction xs generalizing x with
  | nil =>
    simp only [insideOne,List.length_append,List.length_singleton,List.mem_singleton]
    refine ⟨Nat.succ_pos _,?_⟩
    rintro _ rfl
    omega
  | cons y ys ih =>
    obtain ⟨count,lengths⟩ := ih y
    simp only [insideMore,List.length_append,List.length_cons]
    refine ⟨by omega,fun z mem => ?_⟩
    rcases List.mem_cons.mp mem with rfl | among
    · omega
    · have := lengths z among
      omega

theorem insideHead {x : α} (head : ∃ c t, written x = c::t ∧ isSpace c = false ∧ c ≠ closing)
    (xs : List α) (rest : Text) :
    (skipSpace (inside layout place written closing x xs ++ rest)).head? ≠ some closing := by
  obtain ⟨c,t,shape,solid,other⟩ := head
  rw [inside,List.append_assoc,skipSpaces (lineBreakSpaces _ _),shape]
  simp only [List.cons_append,skipNothing solid]
  exact fun same => other (Option.some.inj same)

/- What is written behind the opening mark of a container is read back if each member is. -/
theorem elementsInside {element : Text → Option (α × Text)}
    (mark : closing = ']' ∨ closing = '\x7d') (x : α) (xs : List α)
    (reads : ∀ y ∈ x::xs, ∀ rest, Ends rest →
      element (layout.lineBreak (place + 1) ++ (written y ++ rest)) = some (y,rest))
    {room : Nat} (enough : xs.length < room) (rest : Text) :
    elements element closing room (inside layout place written closing x xs ++ rest) =
      some (x::xs,rest) := by
  induction xs generalizing x room with
  | nil =>
    obtain ⟨solid,ends,other⟩ :
        isSpace closing = false ∧ endsValue closing = true ∧ closing ≠ ',' := by
      rcases mark with rfl | rfl
      all_goals decide
    cases room with
    | zero => contradiction
    | succ room =>
      have gap := lineBreakSpaces layout place
      have first := reads x List.mem_cons_self (layout.lineBreak place ++ closing::rest)
        (endsSpaces gap ends)
      simp only [insideOne,List.append_assoc,List.singleton_append]
      rw [elements,first]
      dsimp only
      rw [skipSpaces gap,skipNothing solid]
      simp only [if_neg other,if_true]
  | cons y ys ih =>
    cases room with
    | zero => contradiction
    | succ room =>
      have next := ih y (fun z mem => reads z (List.mem_cons_of_mem x mem))
        (Nat.lt_of_succ_lt_succ enough)
      have first := reads x List.mem_cons_self
        (','::(inside layout place written closing y ys ++ rest)) rfl
      simp only [insideMore,List.append_assoc,List.cons_append]
      rw [elements,first]
      dsimp only
      rw [skipNothing rfl]
      simp only [if_true,next]

/- The room is measured by a text that holds the whole container, so it is enough for the members
and for their number. -/
theorem readInside {element : Text → Option (α × Text)}
    (mark : closing = ']' ∨ closing = '\x7d') (x : α) (xs : List α) {room : Nat}
    (enough : (inside layout place written closing x xs).length < room)
    (reads : ∀ y ∈ x::xs, (written y).length < room → ∀ rest, Ends rest →
      element (layout.lineBreak (place + 1) ++ (written y ++ rest)) = some (y,rest))
    (rest : Text) :
    elements element closing room (inside layout place written closing x xs ++ rest) =
      some (x::xs,rest) := by
  obtain ⟨count,lengths⟩ := insideLength layout place written closing x xs
  refine elementsInside layout place written closing mark x xs (fun y mem => ?_)
    (Nat.lt_trans count enough) rest
  exact reads y mem (Nat.lt_trans (lengths y mem) enough)

end

inductive Plain : (depth : Nat) → Json → Prop where
  | null {depth : Nat} : Plain depth .null
  | bool {depth : Nat} (b : Bool) : Plain depth (.bool b)
  | number {depth : Nat} (n : Nat) : Plain depth (.ofNat n)
  | string {depth : Nat} (text : Text) : Plain depth (.string text)
  | array {depth : Nat} {items : List Json} (plain : ∀ item ∈ items, Plain depth item) :
    Plain (depth + 1) (.array items)
  | object {depth : Nat} {fields : List (Text × Json)}
    (plain : ∀ field ∈ fields, Plain depth field.2) : Plain (depth + 1) (.object fields)

theorem Plain.deeper {depth : Nat} {j : Json} (plain : Plain depth j) {more : Nat}
    (enough : depth ≤ more) : Plain more j := by
  induction plain generalizing more with
  | null => exact .null
  | bool b => exact .bool b
  | number n => exact .number n
  | string text => exact .string text
  | array plain ih =>
    obtain ⟨more,rfl⟩ := Nat.exists_eq_add_one_of_ne_zero (Nat.ne_zero_of_lt enough)
    exact .array fun item mem => ih item mem (Nat.le_of_succ_le_succ enough)
  | object plain ih =>
    obtain ⟨more,rfl⟩ := Nat.exists_eq_add_one_of_ne_zero (Nat.ne_zero_of_lt enough)
    exact .object fun field mem => ih field mem (Nat.le_of_succ_le_succ enough)

theorem valueSkips {gap : Text} (spaces : Spaces gap) (room depth : Nat) (t : Text) :
    value room depth (gap ++ t) = value room depth t := by
  unfold value
  rw [skipSpaces spaces]

theorem memberWritten {room depth place : Nat} {layout : Layout} {field : Text × Json} {rest : Text}
    (reads : value room depth (writeAt layout place field.2 ++ rest) = some (field.2,rest))
    {lead : Text} (spaces : Spaces lead) :
    member (value room depth) (lead ++ (writeField layout place field ++ rest)) =
      some (field,rest) := by
  obtain ⟨name,j⟩ := field
  have shape : writeField layout place (name,j) ++ rest =
      '\x22'::(name.flatMap escape ++ '\x22'::(layout.colon ++ (writeAt layout place j ++ rest))) := by
    simp [writeField,quote]
  have colon : ∃ gap, layout.colon = ':'::gap ∧ Spaces gap := by
    cases layout with
    | pretty => exact ⟨[' '],rfl,by simp [Spaces,isSpace]⟩
    | compact => exact ⟨[],rfl,by simp [Spaces]⟩
  obtain ⟨gap,colon,blank⟩ := colon
  rw [member,skipSpaces spaces,shape,skipNothing rfl]
  simp only [stringRestQuote]
  rw [colon,List.cons_append,skipNothing rfl]
  simp only [valueSkips blank,reads]

theorem valueString (room depth : Nat) (t : Text) :
    value room depth ('\x22'::t) = (stringRest t).map fun (text,rest) => (.string text,rest) := by
  rw [value,skipNothing rfl]
  rfl

theorem digitSolid {c : Char} (digit : c.isDigit = true) : isSpace c = false := by
  have other {d : Char} (letter : d.isDigit = false) : c ≠ d := digitOther digit letter
  have blank : c ≠ ' ' := other rfl
  have line : c ≠ '\n' := other rfl
  have carriage : c ≠ '\r' := other rfl
  have tab : c ≠ '\t' := other rfl
  simp [isSpace,blank,line,carriage,tab]

theorem valueNumber (room depth : Nat) {c : Char} (digit : c.isDigit = true) (t : Text) :
    value room depth (c::t) = (number? (c::t)).map fun (digits,rest) => (.number digits,rest) := by
  have other (d : Char) (letter : d.isDigit = false) : c ≠ d := digitOther digit letter
  rw [value,skipNothing (digitSolid digit)]
  simp only [if_neg (other '\x22' rfl),if_neg (other '[' rfl),if_neg (other '\x7b' rfl),
    if_neg (other 'n' rfl),if_neg (other 't' rfl),if_neg (other 'f' rfl)]

theorem valueArray (room depth : Nat) {t : Text} (nonempty : (skipSpace t).head? ≠ some ']') :
    value room (depth + 1) ('['::t) =
      (elements (value room depth) ']' room t).map fun (xs,rest) => (.array xs,rest) := by
  rw [value,skipNothing rfl]
  have dispatch (x y : Option (Json × Text)) : (if '[' = '\x22' then x else y) = y := rfl
  simp only [dispatch,if_true]
  split
  · rename_i same
    rw [same] at nonempty
    exact absurd rfl nonempty
  · rfl

theorem valueObject (room depth : Nat) {t : Text} (nonempty : (skipSpace t).head? ≠ some '\x7d') :
    value room (depth + 1) ('\x7b'::t) =
      (elements (member (value room depth)) '\x7d' room t).map fun (fields,rest) =>
        (.object fields,rest) := by
  rw [value,skipNothing rfl]
  have dispatch (x y z : Option (Json × Text)) :
      (if '\x7b' = '\x22' then x else if '\x7b' = '[' then y else z) = z := rfl
  simp only [dispatch,if_true]
  split
  · rename_i same
    rw [same] at nonempty
    exact absurd rfl nonempty
  · rfl

theorem writtenHead {depth : Nat} {j : Json} (plain : Plain depth j) (layout : Layout)
    (place : Nat) : ∃ c t, writeAt layout place j = c::t ∧ isSpace c = false ∧ c ≠ ']' := by
  cases plain with
  | null => exact ⟨_,_,rfl,rfl,by decide⟩
  | bool b => cases b <;> exact ⟨_,_,rfl,rfl,by decide⟩
  | number n =>
    obtain ⟨d,digits,shape,digit⟩ := decimalCons n
    exact ⟨d,digits,shape,digitSolid digit,digitOther digit rfl⟩
  | string text => exact ⟨_,_,rfl,rfl,by decide⟩
  | @array _ items _ => cases items <;> exact ⟨_,_,rfl,rfl,by decide⟩
  | @object _ fields _ => cases fields <;> exact ⟨_,_,rfl,rfl,by decide⟩

theorem valueWritten (layout : Layout) {depth : Nat} {j : Json} (plain : Plain depth j)
    {room : Nat} (place : Nat) (enough : (writeAt layout place j).length ≤ room) {rest : Text}
    (ends : Ends rest) : value room depth (writeAt layout place j ++ rest) = some (j,rest) := by
  -- A member lies one place deeper than its container and has other text behind it.
  induction plain generalizing place rest with
  | null =>
    rw [value]
    rfl
  | bool b =>
    rw [value]
    cases b <;> rfl
  | number n =>
    obtain ⟨d,digits,shape,digit⟩ := decimalCons n
    have written : writeAt layout place (.ofNat n) = decimal n := by rw [ofNat,writeAt]
    have read := numberDecimal n ends
    rw [written]
    rw [shape,List.cons_append] at read ⊢
    rw [valueNumber _ _ digit,read,← shape]
    rfl
  | string text =>
    have written : writeAt layout place (.string text) ++ rest =
        '\x22'::(text.flatMap escape ++ '\x22'::rest) := by simp [writeAt,quote]
    rw [written,valueString,stringRestQuote]
    rfl
  | @array depth items plain ih =>
    cases items with
    | nil =>
      rw [writeAt,value]
      rfl
    | cons item items =>
      rw [arrayInside] at enough ⊢
      have head := writtenHead (plain item List.mem_cons_self) layout (place + 1)
      rw [List.cons_append,valueArray _ _ (insideHead _ _ _ _ head items rest),
        readInside _ _ _ _ (Or.inl rfl) item items enough ?_ rest]
      · rfl
      · intro y mem small rest ends
        rw [valueSkips (lineBreakSpaces layout (place + 1))]
        exact ih y mem (place + 1) (Nat.le_of_lt small) ends
  | @object depth fields plain ih =>
    cases fields with
    | nil =>
      rw [writeAt,value]
      rfl
    | cons field fields =>
      rw [objectInside] at enough ⊢
      have head : ∃ c t, writeField layout (place + 1) field = c::t ∧ isSpace c = false ∧
          c ≠ '\x7d' := ⟨_,_,rfl,rfl,by decide⟩
      rw [List.cons_append,valueObject _ _ (insideHead _ _ _ _ head fields rest),
        readInside _ _ _ _ (Or.inr rfl) field fields enough ?_ rest]
      · rfl
      · intro y mem small rest ends
        rw [writeField,List.length_append,List.length_append] at small
        have read := ih y mem (place + 1) (by omega) ends
        exact memberWritten read (lineBreakSpaces layout (place + 1))

/-- A value whose numbers are natural is read back from either layout, unless its containers are
nested deeper than a reader follows them. -/
theorem parseWrite (layout : Layout) {j : Json} (plain : Plain deepest j) :
    parse? (write layout j) = some j := by
  have read := valueWritten layout plain 0 (Nat.le_refl _) (rfl : Ends [])
  rw [List.append_nil] at read
  rw [parse?,write,read]
  rfl

theorem escapeOneLine (c : Char) : '\n' ∉ escape c := by
  rcases escapeCases c with ⟨letter,written,_,meant⟩ | ⟨control,written⟩ | ⟨_,_,printed,written⟩
  · have other : letter ≠ '\n' := by
      rintro rfl
      contradiction
    simp [written,Ne.symm other]
  · have digits : ∀ n < 16, '\n' ≠ hexDigit n := by decide
    have high := digits (c.toNat / 16) (by omega)
    have low := digits (c.toNat % 16) (by omega)
    simp [written,high,low]
  · rw [written,List.mem_singleton]
    rintro rfl
    exact printed (by decide)

theorem quoteOneLine (t : Text) : '\n' ∉ quote t := by
  simp [quote,escapeOneLine]

theorem insideOneLine {α : Type} (place : Nat) {written : α → Text} {closing : Char}
    (mark : closing ≠ '\n') (x : α) (xs : List α) (each : ∀ y ∈ x::xs, '\n' ∉ written y) :
    '\n' ∉ inside .compact place written closing x xs := by
  obtain ⟨first,others⟩ := List.forall_mem_cons.mp each
  simpa [inside,Layout.lineBreak,followers,first,Ne.symm mark] using others

theorem compactOneLine {depth : Nat} {j : Json} (plain : Plain depth j) (place : Nat) :
    '\n' ∉ writeAt .compact place j := by
  induction plain generalizing place with
  | null => simp [writeAt]
  | bool b => cases b <;> simp [writeAt]
  | number n =>
    intro mem
    exact Bool.noConfusion (List.all_eq_true.mp (decimalDigits n) _ (by rwa [ofNat,writeAt] at mem))
  | string text =>
    rw [writeAt]
    exact quoteOneLine text
  | @array _ items _ ih =>
    cases items with
    | nil => simp [writeAt]
    | cons item items =>
      rw [arrayInside]
      have each := insideOneLine place (by decide : ']' ≠ '\n') item items
        fun y mem => ih y mem (place + 1)
      simpa using each
  | @object _ fields _ ih =>
    cases fields with
    | nil => simp [writeAt]
    | cons field fields =>
      rw [objectInside]
      have one : ∀ y ∈ field::fields, '\n' ∉ writeField .compact (place + 1) y := by
        intro y mem
        simpa [writeField,Layout.colon,quoteOneLine] using ih y mem (place + 1)
      have each := insideOneLine place (by decide : '\x7d' ≠ '\n') field fields one
      simpa using each

end ProjectSlice.Json
