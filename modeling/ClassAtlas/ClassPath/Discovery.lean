-- From the description of a loader to its paths. Three kinds of loaders are known: those
-- with a plain list of paths, those with modules, and web applications. A loader of another
-- kind has no paths, and its chain ends in front of it.
import ClassAtlas.ClassPath.Basic
import ClassAtlas.ClassPath.Description
import ClassAtlas.EntryPath
import ClassAtlas.FileTree

namespace ClassAtlas

/-! ## Kinds of loaders -/

inductive LoaderKind
  | paths
  | modules
  | webApplication
deriving DecidableEq

namespace LoaderKind

def all : List LoaderKind := [paths, modules, webApplication]

def label : LoaderKind → String
  | paths => "classpath"
  | modules => "jboss-modules"
  | webApplication => "webapp"

/-- The types that a loader of some kind may name. -/
def tags : LoaderKind → List String
  | paths => ["classpath", "app", "system", "url"]
  | modules => ["jboss-modules"]
  | webApplication => ["webapp"]

/-- The kind of a loader of some type. -/
def ofTag? (tag : String) : Option LoaderKind := all.find? fun kind => kind.tags.contains tag

/-- Where a loader looks first unless it is told. -/
def delegation : LoaderKind → Delegation
  | webApplication => .selfFirst
  | _ => .parentFirst

end LoaderKind

/-! ## Modules -/

namespace ResourceRoot

/-- The place that a resource root names first: the archive beside the physical file if it
is there, the physical file itself, or the path of a root without one. -/
def named? (t : FileTree) (r : ResourceRoot) : Option String :=
  match r.physicalFile with
  | none => r.pathName
  | some physical =>
    let beside := do
      let folder ← Path.parent? physical
      let name ← r.name
      return Path.join folder name
    some ((beside.filter t.has).getD physical)

/-- The path of a resource root. The named place wins if it is a file; otherwise the source
of the mount, the archive, and the named place come in this order. -/
def path? (t : FileTree) (r : ResourceRoot) : Option String :=
  match (r.named? t).filter t.isFile with
  | some path => some path
  | none => r.mountSource <|> r.fileOfJar <|> r.named? t

end ResourceRoot

/-- The first module of each name that was not seen. -/
def firstModules (seen : List String) : List ModuleDescription → List ModuleDescription
  | [] => []
  | m :: rest =>
    if seen.contains m.name then firstModules seen rest
    else m :: firstModules (m.name :: seen) rest

/-- The entries of a module, one for each of its roots that has a path. -/
def ModuleDescription.entries (t : FileTree) (m : ModuleDescription) : List PathEntry :=
  (m.resourceRoots.filterMap (ResourceRoot.path? t)).map fun path =>
    { PathEntry.ofPath path with module := some m.name }

/-! ## Web applications -/

namespace WebApplication

def isJar (name : String) : Bool :=
  match Path.extension? name with
  | some extension => EntryPath.sameLetters extension "jar"
  | none => false

/-- The entries of a web application: its folder of classes, and then its libraries by name. -/
def entries (t : FileTree) (baseDir : String) : List PathEntry :=
  let webInf := Path.join baseDir "WEB-INF"
  let classes := Path.join webInf "classes"
  let library := Path.join webInf "lib"
  let jars := ((t.names? library).getD []).filter isJar
  (if t.isFolder classes then [{ PathEntry.ofPath classes with kind := some .directory }] else []) ++
    jars.map fun name => { PathEntry.ofPath (Path.join library name) with kind := some .archive }

end WebApplication

/-! ## Loaders -/

namespace LoaderDescription

/-- The entries that a loader of some kind has in front of its plain paths. -/
def ownEntries (t : FileTree) (d : LoaderDescription) : LoaderKind → List PathEntry
  | .paths => []
  | .modules => (firstModules [] d.modules).flatMap (ModuleDescription.entries t)
  | .webApplication =>
    match d.baseDir with
    | some baseDir => WebApplication.entries t baseDir
    | none => []

/-- The kind of a loader, if it is known. -/
def kind? (d : LoaderDescription) : Option LoaderKind := LoaderKind.ofTag? d.typeTag

/-- The paths of a loader of a known kind. -/
def paths? (t : FileTree) (d : LoaderDescription) : Option LoaderPaths :=
  d.kind?.map fun kind => {
    name := d.displayName
    entries := d.ownEntries t kind ++ d.paths.map PathEntry.ofPath
    delegation :=
      match d.parentFirst with
      | some true => .parentFirst
      | some false => .selfFirst
      | none => kind.delegation }

end LoaderDescription

namespace LoaderChain

/-- The paths of a loader and its parents, up to the first one of an unknown kind. -/
def discover (t : FileTree) : List LoaderDescription → LoaderChain
  | [] => []
  | d :: parents =>
    match d.paths? t with
    | some paths => paths :: discover t parents
    | none => []

/-- The chains that have any loader. -/
def discoverAll (t : FileTree) (chains : List (List LoaderDescription)) : List LoaderChain :=
  (chains.map (discover t)).filter fun chain => !chain.isEmpty

end LoaderChain

end ClassAtlas
