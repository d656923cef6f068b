import ProjectSlice.Command.Run

/-! The program on a real file system. What the paths of a request lead to is copied into a file
tree, the run takes place on the copy, and its outcome is brought back: texts to the standard
streams, an output file to its place. -/
namespace ProjectSlice.Program

def pathsOf : Option Command.Request → List Path
  | some (.run invocation) =>
    invocation.output.toList ++ match invocation.action with
      | .scan root choice _ => root::choice.config.toList
      | .analyze root _ _ choice _ => root::choice.config.toList
      | .references file => [file]
      | .includes file root => [file,root]
  | _ => []

def outputOf : Option Command.Request → Option Path
  | some (.run invocation) => invocation.output
  | _ => none

def ofString (s : String) : Path := Path.ofText s.toList

def toString (p : Path) : String := String.ofList (Utf8.decodeLossy p)

structure Copy where
  volume : Volume
  done : List String

def Copy.put (c : Copy) (path : String) (entry : Entry) : Copy :=
  ⟨c.volume.put (ofString path) entry,c.done⟩

def nowhere : Bytes := [47,0]

mutual

partial def copyReal (c : Copy) (real : String) : IO Copy := do
  if c.done.contains real then return c
  let c : Copy := ⟨c.volume,real::c.done⟩
  let place ← IO.FS.realPath real
  let data ← place.metadata
  match data.type with
  | .dir =>
    let entries ← place.readDir
    entries.foldlM (fun c entry => copyEntry c entry.path.toString) (c.put real (.folder .empty))
  | .file =>
    let content ← IO.FS.readBinFile place
    return c.put real (.file content.toList)
  | _ => return c

partial def copyEntry (c : Copy) (path : String) : IO Copy := do
  match ← (IO.FS.realPath path).toBaseIO with
  | .error _ => return c.put path (.link nowhere)
  | .ok place =>
    let real := place.toString
    if real == path then
      match ← (copyReal c path).toBaseIO with
      | .error _ => return c
      | .ok c => return c
    else copyEntry (c.put path (.link (ofString real))) real

end

/-- Copies what a path leads to, read from a real directory; links on the way are kept. -/
partial def copyPath (c : Copy) (here : String) : List Bytes → IO Copy
  | [] => copyEntry c here
  | step::rest => do
    let path := toString ((ofString here).join step)
    match ← (IO.FS.realPath path).toBaseIO with
    | .error _ => return c
    | .ok place =>
      let real := place.toString
      if real == path || step == [Path.dot] || step == [Path.dot,Path.dot] || step == [] then
        copyPath c real rest
      else copyPath (c.put path (.link (ofString real))) real rest

def snapshot (paths : List Path) : IO Volume := do
  let here := (← IO.FS.realPath ".").toString
  let work := (Path.segments (ofString here)).filter (· != [])
  let start : Copy := ⟨⟨.empty,work⟩,[]⟩
  let copied ← paths.foldlM (fun c p =>
    copyPath c (if p.isAbsolute then "/" else here) (Volume.steps p))
    (start.put here (.folder .empty))
  return copied.volume

def runProgram (arguments : List String) : IO UInt32 := do
  let words := arguments.map String.toList
  let request := Command.parse words
  let outcome := Command.run (← snapshot (pathsOf request)) words
  IO.print (String.ofList outcome.stdout)
  match outcome.complaint with
  | some complaint => IO.eprintln (String.ofList complaint.message)
  | none => if outcome.code == 2 then IO.eprint (String.ofList Command.usage)
  match outputOf request with
  | some path =>
    if outcome.code == 0 then
      match outcome.volume.read path with
      | .ok content => IO.FS.writeBinFile (toString path) content.toByteArray
      | .error _ => pure ()
  | none => pure ()
  return outcome.code.toUInt32

end ProjectSlice.Program

def main (arguments : List String) : IO UInt32 := ProjectSlice.Program.runProgram arguments
