-- From the paths of the loaders to the roots of a scan. The first entry for each place
-- counts, wherever links lead to it, and the order of the entries gives the ranks.
import ClassAtlas.ClassPath.Basic
import ClassAtlas.EntryPath
import ClassAtlas.FileTree
import ClassAtlas.Filter
import ClassAtlas.ScanFault

namespace ClassAtlas

/-- What the order of roots has to know of the file system. -/
structure PathLookup where
  /-- The path without links to the same place, if there is anything. -/
  canonical? : String → Option String
  isFolder : String → Bool

def FileTree.lookup (t : FileTree) : PathLookup := ⟨t.canonical?, t.isFolder⟩

namespace ClassPath

/-- All entries in order: the overrides, and then each chain of loaders. -/
def entries (overrides : List String) (chains : List LoaderChain) : List PathEntry :=
  overrides.map PathEntry.ofPath ++ chains.flatMap LoaderChain.flatten

/-- The entries that lead somewhere, each with its canonical path. -/
def located (lookup : PathLookup) (entries : List PathEntry) : List (String × PathEntry) :=
  entries.filterMap fun e => (lookup.canonical? e.path).map fun path => (path, e)

/-- A fault for each entry that leads nowhere. -/
def missing (lookup : PathLookup) (entries : List PathEntry) : List Diagnostic :=
  entries.filterMap fun e =>
    match lookup.canonical? e.path with
    | some _ => none
    | none => some (Diagnostic.ofFault (.pathNotFound e.path))

/-- The first entry for each path that was not seen. -/
def firstOfEach (seen : List String) : List (String × PathEntry) → List (String × PathEntry)
  | [] => []
  | (path, e) :: rest =>
    if seen.contains path then firstOfEach seen rest
    else (path, e) :: firstOfEach (path :: seen) rest

/-- What an entry for a path is: what it says, or else what the file system tells. -/
def kindOf (lookup : PathLookup) (path : String) (e : PathEntry) : RootKind :=
  e.kind.getD (if lookup.isFolder path then .directory else .archive)

/-- Whether a filter takes in an archive at a path. Only its file name counts. -/
def archiveAccepted (f : NameFilter) (path : String) : Bool :=
  match EntryPath.fileName path with
  | "" => true
  | name => f.archiveAccepted name

/-- Whether a filter takes in a root. Folders are always taken in. -/
def rootAccepted (lookup : PathLookup) (f : NameFilter) (found : String × PathEntry) : Bool :=
  match kindOf lookup found.1 found.2 with
  | .directory => true
  | .archive => archiveAccepted f found.1

/-- The roots of a scan. -/
def roots (lookup : PathLookup) (f : NameFilter) (entries : List PathEntry) : List ScanRoot :=
  ((firstOfEach [] (located lookup entries)).filter (rootAccepted lookup f)).zipIdx.map
    fun ((path, e), rank) => ⟨path, kindOf lookup path e, rank, e.module⟩

end ClassPath

end ClassAtlas
