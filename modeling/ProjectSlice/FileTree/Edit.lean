import ProjectSlice.FileTree.Lookup

/-! Changes to a file tree. Files are written whole: through links, over an existing file or as a
new one in an existing directory. The other changes set up and take down a tree, and make the
directories they need. -/
namespace ProjectSlice.Volume
open ProjectSlice.Path (dot)

def write (v : Volume) (p : Path) (content : Bytes) : Except Failure Volume :=
  match v.lookup .creating p with
  | .ok (.file position _) | .ok (.absent position) =>
    .ok ⟨v.top.setAt position (.file content),v.workFolder⟩
  | .ok (.folder _ _) => .error .isDirectory
  | .error failure => .error failure

/-- The volume with the directories on the way to a path, as far as they are missing, and the
position that the path then has; a link at the last step is not followed. -/
def reach (v : Volume) : (here : Position) → List Bytes → Volume × Position
  | here,[] => (v,here)
  | here,[name] => (v,here ++ [name])
  | here,name::names =>
    match walk v.top .creating linkLimit here [name] with
    | .ok (.folder position _) => reach v position names
    | .ok (.absent position) =>
      reach ⟨v.top.setAt position (.folder .empty),v.workFolder⟩ position names
    | _ => reach v (here ++ [name]) names

def route (v : Volume) (p : Path) : Position × List Bytes :=
  (if p.isAbsolute then [] else v.workFolder,
    (Path.segments p).filter fun s => s ≠ [] && s ≠ [dot])

/-- The volume with an entry put at a path. A file is written through a link that stands there,
and a directory that stands there stays as it is. -/
def put (v : Volume) (p : Path) (entry : Entry) : Volume :=
  let (here,names) := v.route p
  let (v,position) := v.reach here names
  let placed : Volume := ⟨v.top.setAt position entry,v.workFolder⟩
  match entry,v.lookup .creating (pathOf position) with
  | .file content,.ok _ => (v.write (pathOf position) content).toOption.getD placed
  | .folder _,.ok (.folder _ _) => v
  | _,_ => placed

def remove (v : Volume) (p : Path) : Volume :=
  let (here,names) := v.route p
  ⟨v.top.eraseAt (v.reach here names).2,v.workFolder⟩

end ProjectSlice.Volume
