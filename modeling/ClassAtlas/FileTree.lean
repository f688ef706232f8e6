-- A file system as a value: folders, files and links, each at the list of names that leads
-- to it from the root. A link leads to wherever its target leads, and following too many of
-- them fails.
import ClassAtlas.Bytes
import ClassAtlas.FileTree.Path

namespace ClassAtlas

inductive FileNode
  | folder
  /-- The time of the last change is in nanoseconds. -/
  | file (bytes : Bytes) (modified : Int)
  | link (target : String)
deriving DecidableEq

/-- The names that lead to a place from the root. -/
abbrev Place := List String

structure FileTree where
  /-- What stands at each place. The root is a folder and is not listed. -/
  nodes : List (Place × FileNode) := []
  /-- Where relative paths start. -/
  workingFolder : Place := []
  /-- The time of the next change. -/
  clock : Int := 1

namespace FileTree

/-! ## Places -/

/-- What stands at a place, links not followed. -/
def at? (t : FileTree) (place : Place) : Option FileNode :=
  if place = [] then some .folder else t.nodes.lookup place

/-- Whether a place is a folder, links not followed. -/
def hasFolder (t : FileTree) (place : Place) : Bool := t.at? place = some .folder

/-- Goes down from a folder by names. `follow` goes on where a link leads. The last name
need not be there. -/
def descend (t : FileTree) (follow : Place → List String → Option Place) :
    Place → List String → Option Place
  | current, [] => some current
  | current, name :: rest =>
    if !t.hasFolder current then none
    else if Path.isIdle name then descend t follow current rest
    else if name = ".." then descend t follow current.dropLast rest
    else
      match t.at? (current ++ [name]) with
      | none => if rest = [] then some (current ++ [name]) else none
      | some (.link target) =>
        follow (if Path.isAbsolute target then [] else current) (Path.names target ++ rest)
      | some _ => descend t follow (current ++ [name]) rest

/-- How many links a path may lead through. -/
def linkLimit : Nat := 40

/-- Goes down from a folder by names through at most `budget` links. -/
def followLinks (t : FileTree) : Nat → Place → List String → Option Place
  | 0, current, names => descend t (fun _ _ => none) current names
  | budget + 1, current, names => descend t (followLinks t budget) current names

/-- The place that a path leads to. All of it but the last name has to be there. -/
def place? (t : FileTree) (path : String) : Option Place :=
  if path = "" then none
  else
    followLinks t linkLimit (if Path.isAbsolute path then [] else t.workingFolder)
      (Path.names path)

/-- The place that a path names: a link at its end is not followed. -/
def ownPlace? (t : FileTree) (path : String) : Option Place := do
  let names := Path.trimIdle (Path.names path)
  let name ← names.getLast?
  let folder ← followLinks t linkLimit (if Path.isAbsolute path then [] else t.workingFolder)
    names.dropLast
  if name = ".." || !t.hasFolder folder then none else return folder ++ [name]

/-! ## Reading -/

/-- What a path leads to, and its place. -/
def find? (t : FileTree) (path : String) : Option (Place × FileNode) := do
  let place ← t.place? path
  return (place, ← t.at? place)

/-- Whether a path leads to anything. -/
def has (t : FileTree) (path : String) : Bool := (t.find? path).isSome

/-- Whether a path leads to a folder. -/
def isFolder (t : FileTree) (path : String) : Bool :=
  match t.find? path with
  | some (_, .folder) => true
  | _ => false

/-- Whether a path leads to a file. -/
def isFile (t : FileTree) (path : String) : Bool :=
  match t.find? path with
  | some (_, .file _ _) => true
  | _ => false

/-- The path to the same place that leads through no links. -/
def canonical? (t : FileTree) (path : String) : Option String :=
  (t.find? path).map fun found => Path.ofNames found.1

/-- The bytes of a file. -/
def read? (t : FileTree) (path : String) : Option Bytes :=
  match t.find? path with
  | some (_, .file bytes _) => some bytes
  | _ => none

/-- The names in a folder, in order. -/
def namesAt (t : FileTree) (folder : Place) : List String :=
  (t.nodes.filterMap fun (place, _) =>
    if place.dropLast = folder then place.getLast? else none).mergeSort fun a b => !(b < a)

/-- The names in the folder that a path leads to. -/
def names? (t : FileTree) (path : String) : Option (List String) :=
  match t.find? path with
  | some (place, .folder) => some (t.namesAt place)
  | _ => none

/-! ## Changing -/

/-- Puts a node at a place. -/
def put (t : FileTree) (place : Place) (node : FileNode) : FileTree where
  nodes :=
    if t.nodes.any fun entry => entry.1 = place then
      t.nodes.map fun entry => if entry.1 = place then (place, node) else entry
    else t.nodes ++ [(place, node)]
  workingFolder := t.workingFolder
  clock := t.clock + 1

/-- Writes a file, a new one if there is none. -/
def write? (t : FileTree) (path : String) (bytes : Bytes) : Option FileTree := do
  let place ← t.place? path
  match t.at? place with
  | some .folder => none
  | _ => some (t.put place (.file bytes t.clock))

/-- Makes the folders that are missing on the way down by names. -/
def makeFolders (t : FileTree) : Place → List String → Option FileTree
  | _, [] => some t
  | current, name :: rest =>
    if Path.isIdle name then makeFolders t current rest
    else if name = ".." then makeFolders t current.dropLast rest
    else
      match t.at? (current ++ [name]) with
      | none => makeFolders (t.put (current ++ [name]) .folder) (current ++ [name]) rest
      | some .folder => makeFolders t (current ++ [name]) rest
      | some (.file _ _) => none
      | some (.link _) =>
        match t.find? (Path.ofNames (current ++ [name])) with
        | some (place, .folder) => makeFolders t place rest
        | _ => none

/-- Makes a folder and all folders above it that are missing. -/
def makeFolder? (t : FileTree) (path : String) : Option FileTree :=
  if path = "" then some t
  else
    makeFolders t (if Path.isAbsolute path then [] else t.workingFolder) (Path.names path)

/-- Makes a link. Whatever was there makes way. -/
def link? (t : FileTree) (path target : String) : Option FileTree :=
  (t.ownPlace? path).map fun place => t.put place (.link target)

/-- Whether a place is `top` or lies below it. -/
def within (place top : Place) : Bool := place.take top.length = top

/-- Removes a file, a link or a folder with all that lies below it. -/
def remove? (t : FileTree) (path : String) : Option FileTree := do
  let place ← t.ownPlace? path
  if (t.at? place).isNone then none
  else return { t with nodes := t.nodes.filter fun entry => !within entry.1 place }

/-- Sets the time of the last change of a file. -/
def touch (t : FileTree) (path : String) (modified : Int) : FileTree :=
  match t.find? path with
  | some (place, .file bytes _) => t.put place (.file bytes modified)
  | _ => t

end FileTree

end ClassAtlas
