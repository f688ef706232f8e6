-- The class path as loaders give it. A loader has a list of paths and looks either into
-- its own paths first or into those of its parent; a chain is a loader with its parent,
-- the parent of that one and so on.
import ClassAtlas.Text.Split

namespace ClassAtlas

inductive RootKind
  | archive
  | directory
deriving DecidableEq

def RootKind.label : RootKind → String
  | archive => "archive"
  | directory => "directory"

/-- Where a loader looks first. -/
inductive Delegation
  | parentFirst
  | selfFirst
deriving DecidableEq

structure PathEntry where
  path : String
  /-- Nothing if the file system is to tell. -/
  kind : Option RootKind
  /-- Lower ones come first. -/
  priority : Int
  module : Option String
deriving DecidableEq

/-- An entry of which only the path is known. -/
def PathEntry.ofPath (path : String) : PathEntry := ⟨path, none, 0, none⟩

structure LoaderPaths where
  name : String
  entries : List PathEntry
  delegation : Delegation
deriving DecidableEq

/-- A loader, its parent, the parent of its parent and so on. -/
abbrev LoaderChain := List LoaderPaths

namespace LoaderPaths

/-- The paths of a class path in one text. Colons stand between them, and empty ones do not
count. -/
def splitClassPath (text : String) : List PathEntry :=
  ((Text.splitAt ':' text.toList).filter fun path => !path.isEmpty).map fun path =>
    PathEntry.ofPath (String.ofList path)

/-- A loader over a class path in one text. -/
def ofClassPath (name text : String) : LoaderPaths := ⟨name, splitClassPath text, .parentFirst⟩

/-- The entries of a loader by their priority. Equal ones keep their order. -/
def ordered (l : LoaderPaths) : List PathEntry :=
  l.entries.mergeSort fun a b => a.priority ≤ b.priority

end LoaderPaths

/-- All entries of a chain in the order of look-up. -/
def LoaderChain.flatten : LoaderChain → List PathEntry
  | [] => []
  | loader :: parents =>
    match loader.delegation with
    | .parentFirst => LoaderChain.flatten parents ++ loader.ordered
    | .selfFirst => loader.ordered ++ LoaderChain.flatten parents

/-- A place to scan. Its rank is its position among all of them, and a class of a lower
rank shadows one of a higher rank. -/
structure ScanRoot where
  path : String
  kind : RootKind
  rank : Nat
  module : Option String
deriving DecidableEq

def ScanRoot.isArchive (r : ScanRoot) : Bool := r.kind = .archive

end ClassAtlas
