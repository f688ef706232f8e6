-- Scanning roots. Each root is scanned on its own: its entries are decoded, what fails is
-- reported, and the rest is recorded. The classes of an archive may come out of a cache, and
-- go into it if nothing in the archive failed.
import ClassAtlas.ArchiveCache
import ClassAtlas.ClassPath.Discovery
import ClassAtlas.ClassPath.Order
import ClassAtlas.Descriptor.Decode
import ClassAtlas.Entries
import ClassAtlas.ScanResult
import ClassAtlas.Settings

namespace ClassAtlas

/-! ## One root -/

/-- What a root gives: the classes of its entries, the faults, and the number of entries. -/
structure RootYield where
  classes : List CachedClass
  diagnostics : List Diagnostic
  entries : Nat

namespace RootYield

def append (a b : RootYield) : RootYield :=
  ⟨a.classes ++ b.classes, a.diagnostics ++ b.diagnostics, a.entries + b.entries⟩

/-- What all parts of a root give. -/
def join (yields : List RootYield) : RootYield := yields.foldr append ⟨[], [], 0⟩

end RootYield

/-- What decides about the classes of an entry. -/
structure ScanRules where
  filter : NameFilter
  decoding : DecodeOptions
  /-- How deep archives may lie inside archives. -/
  nesting : Nat

def ScanSettings.rules (s : ScanSettings) : ScanRules :=
  ⟨s.filter, ⟨s.invisibleAnnotations⟩, s.nestedArchiveDepth⟩

namespace ScanRules

/-- What an entry gives: a class if the filter takes in its name, and a fault for each
signature that cannot be read. Bytes that are no descriptor give only a fault. -/
def yieldOfEntry (rules : ScanRules) (e : RootEntry) : RootYield :=
  match Descriptor.decode rules.decoding e.bytes with
  | .error fault => ⟨[], [⟨.malformedDescriptor e.location fault, some e.bytes⟩], 1⟩
  | .ok d => {
      classes :=
        if rules.filter.classAccepted d.record.name then
          [⟨e.ordinal, e.name, e.location, d.record⟩]
        else []
      diagnostics := d.issues.map fun issue =>
        Diagnostic.ofFault (.malformedSignature e.location issue.context issue.fault)
      entries := 1 }

/-- What an item of a root gives. A fault is no entry. -/
def yieldOfItem (rules : ScanRules) : Except ScanFault RootEntry → RootYield
  | .ok e => rules.yieldOfEntry e
  | .error fault => ⟨[], [Diagnostic.ofFault fault], 0⟩

/-- What the items of a root give. -/
def yieldOf (rules : ScanRules) (items : List (Except ScanFault RootEntry)) : RootYield :=
  RootYield.join (items.map rules.yieldOfItem)

end ScanRules

/-- What is kept of a root. -/
def CachedArchive.toYield (a : CachedArchive) : RootYield := ⟨a.classes, [], a.entries⟩

/-- The definition of a class in a root. -/
def ScanRoot.definition (root : ScanRoot) (c : CachedClass) : Definition where
  record := c.record
  provenance := ⟨root.rank, c.ordinal, root.path, c.entryName, c.location, root.module⟩

/-! ## All roots -/

/-- What a scan sees of the roots: their entries, and the stamps of their files. -/
structure RootView where
  entries : ScanRoot → List (Except ScanFault RootEntry)
  stamp? : String → Option Stamp

/-- What there is to see in a tree, with its archives opened by `openArchive`. -/
def FileTree.rootView (openArchive : OpenArchive) (t : FileTree) (rules : ScanRules) : RootView where
  entries root := rootEntriesWith openArchive t rules.filter rules.nesting root.kind root.path
  stamp? := t.stamp?

/-- What the roots give without a cache. -/
def plainYields (rules : ScanRules) (view : RootView) (roots : List ScanRoot) : List RootYield :=
  roots.map fun root => rules.yieldOf (view.entries root)

section Cached

variable {σ : Type}

/-- What a root gives, whether it came out of the cache, and the cache after it. -/
def cachedYield (files : CacheFiles σ) (rules : ScanRules) (view : RootView)
    (state : σ × CacheMemory) (root : ScanRoot) : (RootYield × Bool) × (σ × CacheMemory) :=
  let (s, memory) := state
  let fingerprint := rules.filter.fingerprint
  let stamp := view.stamp? root.path
  if !root.isArchive then ((rules.yieldOf (view.entries root), false), state)
  else
    match memory.find files s root.path stamp fingerprint with
    | (some kept, memory) => ((kept.toYield, true), (s, memory))
    | (none, memory) =>
      let found := rules.yieldOf (view.entries root)
      let state :=
        if found.diagnostics.isEmpty then
          (memory.store? files s root.path stamp fingerprint found.entries found.classes).getD
            (s, memory)
        else (s, memory)
      ((found, false), state)

/-- What the roots give one after the other. -/
def cachedYields (files : CacheFiles σ) (rules : ScanRules) (view : RootView) :
    σ × CacheMemory → List ScanRoot → List (RootYield × Bool) × (σ × CacheMemory)
  | state, [] => ([], state)
  | state, root :: rest =>
    let (first, state) := cachedYield files rules view state root
    let (others, state) := cachedYields files rules view state rest
    (first :: others, state)

end Cached

/-! ## The result -/

/-- All definitions that the roots give. -/
def definitionsOf (roots : List ScanRoot) (yields : List RootYield) : List Definition :=
  (roots.zip yields).flatMap fun (root, y) => y.classes.map root.definition

/-- The fault that tells why a scan ended early. -/
def Completion.diagnostics : Completion → List Diagnostic
  | complete => []
  | cancelled => [Diagnostic.ofFault .cancelled]
  | timedOut => [Diagnostic.ofFault (.timedOut none)]

/-- The result of a scan. `missing` are the faults of the class path. -/
def ScanResult.ofYields (roots : List ScanRoot) (missing : List Diagnostic)
    (yields : List RootYield) (cachedRoots : Nat) (completion : Completion) : ScanResult :=
  let (graph, cyclic) := (GraphBuilder.empty.recordAll (definitionsOf roots yields)).finish
  { graph, roots, completion, cachedRoots
    diagnostics := missing ++ yields.flatMap RootYield.diagnostics ++ completion.diagnostics ++ cyclic
    entries := (yields.map RootYield.entries).foldr (· + ·) 0 }

/-! ## Scanners -/

/-- A scanner keeps its cache from one scan to the next. -/
structure Scanner where
  settings : Settings
  cancelled : Bool := false
  cache : Option ArchiveCache := none

namespace Scanner

/-- A new scanner. Its cache may make a folder. -/
def ofSettings (t : FileTree) (settings : Settings) : FileTree × Scanner :=
  if settings.cache.enabled then
    let (t, cache) := ArchiveCache.openIn t settings.cache.dir
    (t, { settings, cache := some cache })
  else (t, { settings })

/-- How a scan ends. A scan that was cancelled before it starts, or that has no time, reads
nothing. -/
def completion (s : Scanner) : Completion :=
  if s.cancelled then .cancelled
  else if s.settings.scan.timeoutSeconds = some 0 then .timedOut
  else .complete

/-- Scans the paths of some chains of loaders. Archives are opened by `openArchive`. -/
def scanWith (openArchive : OpenArchive) (s : Scanner) (t : FileTree) (chains : List LoaderChain) :
    ScanResult × FileTree × Scanner :=
  let rules := s.settings.scan.rules
  let entries := ClassPath.entries s.settings.classPath.overrides chains
  let roots := ClassPath.roots t.lookup rules.filter entries
  let missing := ClassPath.missing t.lookup entries
  match s.completion, s.cache with
  | .complete, none =>
    (.ofYields roots missing (plainYields rules (t.rootView openArchive rules) roots) 0 .complete, t, s)
  | .complete, some cache =>
    let (found, tree, memory) := cachedYields (ArchiveCache.files cache.folder) rules
      (t.rootView openArchive rules) (t, cache.memory) roots
    (.ofYields roots missing (found.map (·.1)) (found.filter (·.2)).length .complete, tree,
      { s with cache := some { cache with memory } })
  | completion, _ => (.ofYields roots missing [] 0 completion, t, s)

/-- Scans the paths of some chains of loaders, whose archives are zip archives. -/
def scan : Scanner → FileTree → List LoaderChain → ScanResult × FileTree × Scanner :=
  scanWith Zip.items?

/-- A chain of one loader that looks into its own paths. -/
def ownPaths (name : String) (paths : List String) : LoaderChain :=
  [⟨name, paths.map PathEntry.ofPath, .selfFirst⟩]

/-- The chains of the settings: those of the loaders, and then the plain paths. -/
def chains (t : FileTree) (s : ClassPathSettings) : List LoaderChain :=
  LoaderChain.discoverAll t s.loaders ++
    if s.paths.isEmpty then [] else [ownPaths "config" s.paths]

/-- Scans what the settings name. -/
def scanSettings (s : Scanner) (t : FileTree) : ScanResult × FileTree × Scanner :=
  s.scan t (chains t s.settings.classPath)

end Scanner

end ClassAtlas
