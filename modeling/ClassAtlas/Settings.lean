-- The settings of a scan: filters and limits, the class path, and the cache.
import ClassAtlas.ClassPath.Description
import ClassAtlas.Filter

namespace ClassAtlas

structure ScanSettings where
  acceptPackages : List String := []
  rejectPackages : List String := []
  acceptArchives : List String := []
  rejectArchives : List String := []
  /-- How deep archives may lie inside archives. -/
  nestedArchiveDepth : Nat := 1
  /-- Zero leaves the number of threads to the program. -/
  workerThreads : Nat := 0
  timeoutSeconds : Option Nat := none
  invisibleAnnotations : Bool := true
deriving DecidableEq

/-- The filter that the settings of a scan give. -/
def ScanSettings.filter (s : ScanSettings) : NameFilter :=
  NameFilter.ofPatterns s.acceptPackages s.rejectPackages s.acceptArchives s.rejectArchives

structure ClassPathSettings where
  /-- Paths in front of all loaders. -/
  overrides : List String := []
  /-- Paths of no loader. -/
  paths : List String := []
  /-- Each loader with its parent, the parent of that one and so on. -/
  loaders : List (List LoaderDescription) := []
deriving DecidableEq

structure CacheSettings where
  enabled : Bool := false
  dir : Option String := none
deriving DecidableEq

structure Settings where
  scan : ScanSettings := {}
  classPath : ClassPathSettings := {}
  cache : CacheSettings := {}
deriving DecidableEq

end ClassAtlas
