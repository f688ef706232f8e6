-- Paths as texts. A slash stands between the names of a path, and an absolute path starts
-- with one. Joining a path with a name and taking its parent work on the text alone.
import ClassAtlas.Text.Split

namespace ClassAtlas.Path

/-- The names of a path. An absolute path has an empty one in front. -/
def names (path : String) : List String := (Text.splitAt '/' path.toList).map String.ofList

/-- Whether a path starts at the root. -/
def isAbsolute (path : String) : Bool := path.toList.head? = some '/'

/-- The absolute path that has these names. -/
def ofNames (names : List String) : String := "/" ++ Text.joined "/" names

/-- A path below another one. An absolute path stays as it is. -/
def join (base part : String) : String :=
  if isAbsolute part || base = "" || base.toList.getLast? = some '/' then
    if isAbsolute part then part else base ++ part
  else base ++ "/" ++ part

/-- Whether a name changes nothing: it is empty or a single dot. -/
def isIdle (name : String) : Bool := name = "" || name = "."

/-- Names without the idle ones at their end. -/
def trimIdle (names : List String) : List String := (names.reverse.dropWhile isIdle).reverse

/-- The names without the last one, if there is any that is not idle. -/
def dropName? (names : List String) : Option (List String) :=
  match trimIdle names with
  | [] => none
  | kept => some (trimIdle kept.dropLast)

/-- The path above a path. The root has none, and neither has the empty path. -/
def parent? (path : String) : Option String :=
  match names path with
  | "" :: rest => (dropName? rest).map fun kept => "/" ++ Text.joined "/" kept
  | "." :: rest =>
    match dropName? rest with
    | none => some ""
    | some kept => some (Text.joined "/" ("." :: kept))
  | all => (dropName? all).map (Text.joined "/")

/-- The part of a name after its last dot. A dot in front of a name starts no extension. -/
def extension? (name : String) : Option String :=
  match Text.splitLast? '.' name.toList with
  | some (_ :: _, extension) => some (String.ofList extension)
  | _ => none

end ClassAtlas.Path
