-- Reading settings from a TOML document. Keys that are not known do not count, a known key
-- may stand only once, and a list may stand for a table with its values in the order of the
-- keys.
import ClassAtlas.FileTree
import ClassAtlas.ScanFault
import ClassAtlas.Settings
import ClassAtlas.Text.Utf8
import ClassAtlas.Toml.Document

namespace ClassAtlas.Toml

/-! ## Values -/

namespace Value

abbrev Decoded (α : Type) := Except TomlFault α

def asText : Value → Decoded String
  | text value => .ok value
  | _ => .error (.wrongType "a string")

def asBool : Value → Decoded Bool
  | boolean value => .ok value
  | _ => .error (.wrongType "a boolean")

/-- A number that is not negative. -/
def asNat : Value → Decoded Nat
  | integer value => if 0 ≤ value then .ok value.toNat else .error (.wrongType "a positive number")
  | _ => .error (.wrongType "an integer")

def asList {α : Type} (item : Value → Decoded α) : Value → Decoded (List α)
  | array items => items.mapM item
  | _ => .error (.wrongType "a sequence")

def asTexts : Value → Decoded (List String) := asList asText

/-! ## Tables -/

/-- The value at a key that may stand once. -/
def single (entries : Entries) (key : String) : Decoded (Option Value) :=
  match entries.filter fun e => e.1 = key with
  | [] => .ok none
  | [(_, value)] => .ok (some value)
  | _ => .error (.repeated key)

/-- The values at some keys. A list has them in the order of the keys, and a date is a table
without any key that is known. -/
def fields (keys : List String) : Value → Decoded (String → Option Value)
  | table entries | dotted entries => do
    let values ← keys.mapM (single entries)
    return fun key => ((keys.zip values).lookup key).join
  | array items =>
    if items.length ≤ keys.length then .ok fun key => (keys.zip items).lookup key
    else .error (.wrongType "fewer elements")
  | dateTime => .ok fun _ => none
  | _ => .error (.wrongType "a table")

/-- The value of a key, or what stands in for it where it is absent. -/
def orElse {α : Type} (absent : α) (decode : Value → Decoded α) : Option Value → Decoded α
  | some value => decode value
  | none => .ok absent

/-- The value of a key that may be absent. -/
def orNone {α : Type} (decode : Value → Decoded α) (value : Option Value) : Decoded (Option α) :=
  orElse none (fun v => (decode v).map some) value

/-- The value of a key that has to be there. -/
def required {α : Type} (key : String) (decode : Value → Decoded α) : Option Value → Decoded α
  | some value => decode value
  | none => .error (.missing key)

mutual

/-- How deep the tables and lists of a value nest. -/
def depth : Value → Nat
  | array items => depthOfItems items + 1
  | table entries | dotted entries => depthOfEntries entries + 1
  | _ => 0

def depthOfItems : List Value → Nat
  | [] => 0
  | v :: rest => max (depth v) (depthOfItems rest)

def depthOfEntries : List (String × Value) → Nat
  | [] => 0
  | (_, v) :: rest => max (depth v) (depthOfEntries rest)

end

end Value

end ClassAtlas.Toml

namespace ClassAtlas

open Toml Toml.Value

/-! ## Loaders -/

def ResourceRoot.decode (v : Value) : Decoded ResourceRoot := do
  let field ← fields ["name", "physical_file", "path_name", "mount_source", "file_of_jar"] v
  return {
    name := ← orNone asText (field "name")
    physicalFile := ← orNone asText (field "physical_file")
    pathName := ← orNone asText (field "path_name")
    mountSource := ← orNone asText (field "mount_source")
    fileOfJar := ← orNone asText (field "file_of_jar") }

def ModuleDescription.decode (v : Value) : Decoded ModuleDescription := do
  let field ← fields ["name", "resource_roots"] v
  return {
    name := ← required "name" asText (field "name")
    resourceRoots := ← orElse [] (asList ResourceRoot.decode) (field "resource_roots") }

/-- A loader with its parents, read from a value that nests at most as deep as the fuel. -/
def LoaderDescription.decodeWith : Nat → Value → Decoded (List LoaderDescription)
  | 0, _ => .error (.wrongType "a table")
  | fuel + 1, v => do
    let field ←
      fields ["type", "name", "paths", "parent_first", "base_dir", "modules", "parent"] v
    let description := {
      typeTag := ← required "type" asText (field "type")
      name := ← orNone asText (field "name")
      paths := ← orElse [] asTexts (field "paths")
      parentFirst := ← orNone asBool (field "parent_first")
      baseDir := ← orNone asText (field "base_dir")
      modules := ← orElse [] (asList ModuleDescription.decode) (field "modules") }
    let parents ← orElse [] (decodeWith fuel) (field "parent")
    return description :: parents

/-- A loader with its parents. -/
def LoaderDescription.decodeChain (v : Value) : Decoded (List LoaderDescription) :=
  decodeWith (v.depth + 1) v

/-! ## Settings -/

def ScanSettings.decode (v : Value) : Decoded ScanSettings := do
  let field ← fields ["accept_packages", "reject_packages", "accept_archives", "reject_archives",
    "nested_archive_depth", "worker_threads", "timeout_secs", "invisible_annotations"] v
  return {
    acceptPackages := ← orElse [] asTexts (field "accept_packages")
    rejectPackages := ← orElse [] asTexts (field "reject_packages")
    acceptArchives := ← orElse [] asTexts (field "accept_archives")
    rejectArchives := ← orElse [] asTexts (field "reject_archives")
    nestedArchiveDepth := ← orElse 1 asNat (field "nested_archive_depth")
    workerThreads := ← orElse 0 asNat (field "worker_threads")
    timeoutSeconds := ← orNone asNat (field "timeout_secs")
    invisibleAnnotations := ← orElse true asBool (field "invisible_annotations") }

def ClassPathSettings.decode (v : Value) : Decoded ClassPathSettings := do
  let field ← fields ["override", "paths", "loaders"] v
  return {
    overrides := ← orElse [] asTexts (field "override")
    paths := ← orElse [] asTexts (field "paths")
    loaders := ← orElse [] (asList LoaderDescription.decodeChain) (field "loaders") }

def CacheSettings.decode (v : Value) : Decoded CacheSettings := do
  let field ← fields ["enabled", "dir"] v
  return {
    enabled := ← orElse false asBool (field "enabled")
    dir := ← orNone asText (field "dir") }

namespace Settings

/-- The settings of a table. -/
def decode (v : Value) : Decoded Settings := do
  let field ← fields ["scan", "classpath", "cache"] v
  return {
    scan := ← orElse {} ScanSettings.decode (field "scan")
    classPath := ← orElse {} ClassPathSettings.decode (field "classpath")
    cache := ← orElse {} CacheSettings.decode (field "cache") }

/-- The settings of a TOML text. -/
def ofText (text : String) : Except ScanFault Settings :=
  match Toml.parse text >>= fun entries => decode (.table entries) with
  | .ok settings => .ok settings
  | .error fault => .error (.badSettings fault.message)

/-- The settings of a TOML file. A file that cannot be read as text stands for no settings. -/
def load (t : FileTree) (path : String) : Except ScanFault Settings :=
  match (t.read? path).bind Utf8.decode? with
  | some chars => ofText (String.ofList chars)
  | none => .ok {}

end Settings

end ClassAtlas
