import ProjectSlice.Toml.Scalar

/-! TOML documents. A key is a path of names. A key with a value adds a field to the table that the
last header opened; the names before its last one lead through tables that dotted keys alone have
made. A header opens a table that nothing has defined, or one more table of an array of tables.
Containers and keys are nested less than `nestingLimit` deep, which bounds the reading of values. -/
namespace ProjectSlice.Toml
open Sequence Reader

def nestingLimit : Nat := 80

def isBareKey (c : Char) : Bool := c.isAlphanum || c == '-' || c == '_'

def key : Reader (List Text) := do
  let part : Reader Text := do
    spaces
    let name ← shortString <|> run isBareKey
    spaces
    pure name
  let first ← part
  let rest ← more part nestingLimit
  let names := first::rest
  require (names.length < nestingLimit)
  pure names
where
  more (part : Reader Text) : Nat → Reader (List Text)
    | 0 => pure []
    | room + 1 => (do
      exactly ['.']
      let name ← part
      let rest ← more part room
      pure (name::rest)) <|> pure []

def changeLast {α : Type} (f : Value → Option (Value × α)) : List Value → Option (List Value × α)
  | [] => none
  | [item] => (f item).map fun (item,a) => ([item],a)
  | item::items => (changeLast f items).map fun (items,a) => (item::items,a)

/-- The fields of a table after a change deep inside, at the end of a path. Tables that are missing
on the way are made, as tables that a dotted key or a header implies. A path leads into the last
table of an array of tables, but never into a value; a dotted key leads into implied tables
alone. -/
def descend {α : Type} (dotted : Bool) (change : TableForm → Fields → Option (Fields × α)) :
    List Text → TableForm → Fields → Option (Fields × α)
  | [],form,fields => change form fields
  | name::path,_,fields =>
    match fields.get? name with
    | none => do
      let form := if dotted then .dotted else .implied
      let (inside,a) ← descend dotted change path form []
      some (fields.put name (.table form inside),a)
    | some (.table form inside) => do
      if form = .inline ∨ (dotted ∧ form = .header) then none
      else
        let (inside,a) ← descend dotted change path form inside
        some (fields.put name (.table form inside),a)
    | some (.array .headers items) => do
      let (items,a) ← changeLast (fun
        | .table form inside => do
          let (inside,a) ← descend dotted change path form inside
          some (.table form inside,a)
        | _ => none) items
      some (fields.put name (.array .headers items),a)
    | some _ => none

/-- The change that adds a field behind a path: the table at its end has to be one that a dotted
key made, exactly when the path is not empty, and must not have the field. -/
def addField (path : List Text) (name : Text) (value : Value) (form : TableForm)
    (fields : Fields) : Option (Fields × Unit) :=
  if (form = .dotted ↔ path = []) ∨ (fields.get? name).isSome then none
  else some (fields.put name value,())

def insert (form : TableForm) (fields : Fields) (names : List Text) (value : Value) :
    Option Fields := do
  let name ← names.getLast?
  let path := names.dropLast
  let (fields,_) ← descend true (addField path name value) path form fields
  some fields

def separated {α : Type} (element : Reader α) : (room : Nat) → Reader (List α)
  | 0 => pure []
  | room + 1 => (do
    let x ← element
    let rest ← (do exactly [',']; let rest ← separated element room; require !rest.isEmpty
                   pure rest) <|> pure []
    pure (x::rest)) <|> pure []

def afterGap : (inComment : Bool) → Text → Text
  | _,[] => []
  | _,'\n' :: t | _,'\r' :: '\n' :: t => afterGap false t
  | true,c::t => if isPlain c then afterGap true t else c::t
  | false,'#' :: t => afterGap true t
  | false,c::t => if isSpace c then afterGap false t else c::t

def gap : Reader Unit := modify (afterGap false)

def arrayRest (room : Nat) (value : Reader Value) : Reader Value := do
  let item : Reader Value := do
    gap
    let x ← value
    gap
    pure x
  let items ← separated item room
  if !items.isEmpty then
    let _ ← optional (exactly [','])
  gap
  exactly [']']
  pure (.array .inline items)

def tableRest (room : Nat) (value : Reader Value) : Reader Value := do
  let pair : Reader (List Text × Value) := do
    let names ← key
    exactly ['=']
    spaces
    let x ← value
    spaces
    pure (names,x)
  let pairs ← separated pair room
  spaces
  exactly ['\x7d']
  let fields ← liftM (pairs.foldlM (fun fields (names,x) => insert .inline fields names x) [])
  pure (.table .inline fields)

def value (room : Nat) : (depth : Nat) → Reader Value
  | 0 => scalar
  | depth + 1 =>
    (do exactly ['[']; arrayRest room (value room depth)) <|>
    (do exactly ['\x7b']; tableRest room (value room depth)) <|> scalar

def lineEnd : Reader Unit := do
  spaces
  let _ ← optional comment
  lineFeed <|> require (← get).isEmpty

/-- A document while it is read: the finished tables, and the open one with the path of its header
and whether it is one more table of an array. -/
structure Progress where
  finished : Fields
  fields : Fields
  path : List Text
  isItem : Bool

namespace Progress

def start : Progress := ⟨[],[],[],false⟩

def close (d : Progress) : Option Fields :=
  match d.path.getLast? with
  | none => some d.fields
  | some name => do
    let place := fun (_ : TableForm) (fields : Fields) =>
      if d.isItem then
        match fields.get? name with
        | none => some (fields.put name (.array .headers [.table .header d.fields]),())
        | some (.array .headers items) =>
          some (fields.put name (.array .headers (items ++ [.table .header d.fields])),())
        | some _ => none
      else some (fields.put name (.table .header d.fields),())
    let (finished,_) ← descend false place d.path.dropLast .header d.finished
    some finished

def openTable (d : Progress) (names : List Text) : Option Progress := do
  let finished ← d.close
  let name ← names.getLast?
  let take := fun (_ : TableForm) (fields : Fields) =>
    match fields.get? name with
    | none => some (fields,[])
    | some (.table .implied inside) => some (fields.erase name,inside)
    | some _ => none
  let (finished,inside) ← descend false take names.dropLast .header finished
  some ⟨finished,inside,names,false⟩

def openItem (d : Progress) (names : List Text) : Option Progress := do
  let finished ← d.close
  let name ← names.getLast?
  let check := fun (_ : TableForm) (fields : Fields) =>
    match fields.get? name with
    | none | some (.array .headers _) => some (fields,())
    | some _ => none
  let (finished,_) ← descend false check names.dropLast .header finished
  some ⟨finished,[],names,true⟩

end Progress

def line (room : Nat) (d : Progress) : Reader Progress := do
  match (← get).head? with
  | some '[' =>
    match ← optional (exactly ['[','[']) with
    | some _ =>
      let names ← key
      exactly [']',']']
      lineEnd
      liftM (d.openItem names)
    | none =>
      exactly ['[']
      let names ← key
      exactly [']']
      lineEnd
      liftM (d.openTable names)
  | some '#' | some '\n' | some '\r' => lineEnd; pure d
  | _ =>
    let names ← key
    exactly ['=']
    spaces
    let x ← value room (nestingLimit - 1)
    lineEnd
    let fields ← liftM (insert .header d.fields names x)
    pure ⟨d.finished,fields,d.path,d.isItem⟩

def lines : (room : Nat) → Progress → Reader Progress
  | 0,d => pure d
  | room + 1,d => do
    spaces
    if (← get).isEmpty then pure d
    else
      let d ← line (room + 1) d
      lines room d

/-- The fields of a whole document, which may begin with a byte order mark. -/
def parse? (t : Text) : Option Fields := do
  let t := (after? ['\uFEFF'] t).getD t
  let (d,rest) ← lines (t.length + 1) Progress.start t
  if rest.isEmpty then d.close else none

end ProjectSlice.Toml
