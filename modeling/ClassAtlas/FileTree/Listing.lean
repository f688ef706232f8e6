-- What lies below a folder, as a tree. Links are followed. A link that leads nowhere, or to
-- a folder that it lies in, cannot be read.
import ClassAtlas.FileTree

namespace ClassAtlas

inductive Listing
  | file (name : String) (bytes : Bytes)
  | folder (name : String) (items : List Listing)
  | unreadable (name : String)

namespace FileTree

/-- Whether a place is a link itself. -/
def isLink (t : FileTree) (place : Place) : Bool :=
  match t.at? place with
  | some (.link _) => true
  | _ => false

/-- What lies in a folder, by name, down to a depth. `above` are the folders on the way to
it. -/
def listingsAt (t : FileTree) : Nat → List Place → Place → List Listing
  | 0, _, _ => []
  | depth + 1, above, folder =>
    (t.namesAt folder).map fun name =>
      match t.find? (Path.ofNames (folder ++ [name])) with
      | some (_, .file bytes _) => .file name bytes
      | some (place, .folder) =>
        if t.isLink (folder ++ [name]) && (folder :: above).contains place then .unreadable name
        else .folder name (listingsAt t depth (folder :: above) place)
      | _ => .unreadable name

/-- No way down is longer: each link on it leads to a new folder, and between two links it
passes only folders below each other. -/
def listingDepth (t : FileTree) : Nat := (t.nodes.length + 1) * (t.nodes.length + 1)

/-- What lies in the folder that a path leads to. -/
def listings? (t : FileTree) (path : String) : Option (List Listing) :=
  match t.find? path with
  | some (place, .folder) => some (t.listingsAt t.listingDepth [] place)
  | _ => none

end FileTree

end ClassAtlas
