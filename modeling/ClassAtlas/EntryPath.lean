-- Paths of entries inside an archive or below a scanned directory. The path of an entry
-- tells whether it holds a class, under which name, and whether it may be an archive itself.
import ClassAtlas.Bytes
import ClassAtlas.Text.Split

namespace ClassAtlas.EntryPath

/-! ## Classes -/

/-- The folders under which a packaged application keeps its classes. -/
def packageRoots : List String := ["BOOT-INF/classes/", "WEB-INF/classes/"]

/-- A path without the folder of a packaged application at its front. -/
def withoutPackageRoot (path : String) : String :=
  match packageRoots.findSome? fun root => Text.dropFront? root.toList path.toList with
  | some rest => String.ofList rest
  | none => path

/-- The last part of a path. -/
def fileName (path : String) : String := String.ofList (Text.afterLast '/' path.toList)

/-- The dotted name of the class that a path holds. The description of a module holds none. -/
def className? (path : String) : Option String :=
  match Text.dropEnd? ".class".toList path.toList with
  | none => none
  | some stem =>
    let file := String.ofList (Text.afterLast '/' stem)
    if file = "" || file = "module-info" then none
    else some (Text.replaceChar '/' '.' (String.ofList stem))

/-! ## Archives -/

/-- The extensions of archives. -/
def archiveExtensions : List String := ["jar", "zip", "war", "ear"]

/-- Whether two texts are equal when the case of ASCII letters does not count. -/
def sameLetters (a b : String) : Bool := a.toList.map Char.toLower == b.toList.map Char.toLower

/-- Whether a path may name an archive: its extension says so, or it has none. -/
def mayBeArchive (path : String) : Bool :=
  let file := Text.afterLast '/' path.toList
  match Text.splitLast? '.' file with
  | some (_, extension) => archiveExtensions.any (sameLetters (String.ofList extension))
  | none => !file.isEmpty

/-- Whether bytes start as an archive does: with its first entry, or with the end of an
archive without entries. -/
def startsArchive (bytes : Bytes) : Bool :=
  let front := bytes.take 4
  front == [0x50, 0x4B, 0x03, 0x04] || front == [0x50, 0x4B, 0x05, 0x06]

end ClassAtlas.EntryPath
