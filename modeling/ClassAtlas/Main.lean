-- The program. It reads what a run looks at into a file tree, leaves the run to the command
-- line, and writes back what the run changed.
import ClassAtlas.CommandLine

namespace ClassAtlas.Main

/-! ## Reading the disk -/

def diskPath (place : Place) := System.mkFilePath [Path.ofNames place]

/-- The names of a canonical path. -/
def placeOf (path : String) : Place := (Path.names path).filter fun name => !Path.isIdle name

/-- A tree that has been read in part, with the folders of which all was read. -/
structure Reading where
  tree : FileTree
  whole : List Place := []

def Reading.add (r : Reading) (place : Place) (node : FileNode) : Reading :=
  { r with tree := { r.tree with nodes := (place, node) :: r.tree.nodes } }

/-- What stands at a place of the disk. -/
def readNode (place : Place) : IO (Option FileNode) := do
  try
    let about ← (diskPath place).symlinkMetadata
    match about.type with
    | .dir => return some .folder
    | .symlink => return some (.link (← IO.FS.realPath (diskPath place)).toString)
    | .file =>
      let bytes ← IO.FS.readBinFile (diskPath place)
      return some (.file bytes.toList (about.modified.sec * Nat.pow 10 9 + about.modified.nsec.toNat))
    | .other => return none
  catch _ => return none

/-- Reads the node at a place, unless it was read before. -/
def readPlace (r : Reading) (place : Place) : IO Reading := do
  if (r.tree.at? place).isSome then return r
  match ← readNode place with
  | some node => return r.add place node
  | none => return r

/-- Reads the nodes on the way down by names, and tells where the way ends. -/
partial def readWay (r : Reading) (current : Place) : List String → IO (Reading × Option Place)
  | [] => return (r, some current)
  | name :: rest => do
    if Path.isIdle name then readWay r current rest
    else if name = ".." then readWay r current.dropLast rest
    else
      let place := current ++ [name]
      let r ← readPlace r place
      match r.tree.at? place with
      | some (.link target) => readWay r [] (placeOf target ++ rest)
      | some _ => readWay r place rest
      | none => return (r, none)

/-- Reads all that lies below a place. -/
partial def readBelow (r : Reading) (place : Place) : IO Reading := do
  if r.whole.contains place || !r.tree.hasFolder place then return r
  let mut r := { r with whole := place :: r.whole }
  for entry in ← (diskPath place).readDir do
    let (next, found) ← readWay r place [entry.fileName]
    r ← match found with
      | some inner => readBelow next inner
      | none => pure next
  return r

/-- Reads all that some paths lead to. -/
def readPaths (r : Reading) (paths : List String) : IO Reading :=
  paths.foldlM
    (fun r path => do
      let start := if Path.isAbsolute path then [] else r.tree.workingFolder
      match ← readWay r start (Path.names path) with
      | (r, some place) => readBelow r place
      | (r, none) => return r)
    r

/-! ## Writing it -/

/-- Writes the nodes that a run made or changed. -/
def writeChanges (old new : FileTree) : IO Unit :=
  for (place, node) in new.nodes do
    if old.at? place ≠ some node then
      match node with
      | .folder => IO.FS.createDirAll (diskPath place)
      | .file bytes _ => IO.FS.writeBinFile (diskPath place) ⟨bytes.toArray⟩
      | .link _ => pure ()

/-! ## Running -/

/-- Runs a scan and tells its exit code. -/
def scan (o : CommandLine.Options) : IO UInt32 := do
  let start ← IO.monoMsNow
  let here := placeOf (← IO.currentDir).toString
  let empty : Reading := { tree := { workingFolder := here } }
  let (empty, _) ← readWay empty [] here
  let withConfig ← readPaths empty o.config.toList
  match CommandLine.settingsOf withConfig.tree o with
  | .error fault =>
    IO.eprintln ("Error: " ++ fault.message)
    return 1
  | .ok settings =>
    let all ← readPaths withConfig (CommandLine.pathsOf o settings)
    let (result, scanned) := CommandLine.scan all.tree o settings
    let milliseconds := (← IO.monoMsNow) - start
    let outcome := CommandLine.report scanned o result milliseconds
    writeChanges all.tree outcome.tree
    for line in outcome.stdout do
      IO.println (line.render milliseconds)
    for line in outcome.stderr do
      IO.eprintln line
    return UInt32.ofNat outcome.code

end ClassAtlas.Main

def main (arguments : List String) : IO UInt32 := do
  match ClassAtlas.CommandLine.parse arguments with
  | .error fault =>
    IO.eprintln ("error: " ++ fault.message)
    return 2
  | .ok .help =>
    ClassAtlas.CommandLine.help.forM IO.println
    return 0
  | .ok .version =>
    IO.println ClassAtlas.CommandLine.version
    return 0
  | .ok (.scan options) => ClassAtlas.Main.scan options
