-- Loaders as data: a tag for their type, and whatever paths, modules or folders belong to
-- it. A loader is described together with its parent, the parent of that one and so on.

namespace ClassAtlas

/-- The places where a resource of a module may lie. -/
structure ResourceRoot where
  /-- The file name of the archive that stands beside the physical file. -/
  name : Option String
  physicalFile : Option String
  pathName : Option String
  mountSource : Option String
  fileOfJar : Option String
deriving DecidableEq

structure ModuleDescription where
  name : String
  resourceRoots : List ResourceRoot
deriving DecidableEq

structure LoaderDescription where
  typeTag : String
  name : Option String
  paths : List String
  parentFirst : Option Bool
  /-- The folder of a web application. -/
  baseDir : Option String
  modules : List ModuleDescription
deriving DecidableEq

/-- The name of a loader, or its type where it has none. -/
def LoaderDescription.displayName (d : LoaderDescription) : String := d.name.getD d.typeTag

end ClassAtlas
