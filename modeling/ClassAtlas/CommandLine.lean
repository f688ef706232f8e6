-- What the program does with its options: it reads the settings, scans, and tells what it
-- was asked for. All of it works on a file tree and gives lines to print.
import ClassAtlas.CommandLine.Options
import ClassAtlas.Report
import ClassAtlas.Scan
import ClassAtlas.Settings.Decode

namespace ClassAtlas.CommandLine

/-! ## Output -/

/-- A line of output. The time that the program took stands between the parts of a timed
line. -/
inductive Line
  | plain (text : String)
  | timed (before after : String)

/-- Milliseconds as seconds with two places. Halves go up. -/
def seconds (milliseconds : Nat) : String :=
  let hundredths := (milliseconds + 5) / 10
  toString (hundredths / 100) ++ "." ++ String.ofList (Text.padded 2 (hundredths % 100))

def Line.render (milliseconds : Nat) : Line → String
  | plain text => text
  | timed before after => before ++ seconds milliseconds ++ after

structure Outcome where
  code : Nat
  stdout : List Line
  stderr : List String
  tree : FileTree

/-! ## Scanning -/

/-- The settings of a run: those of the file, with the packages of the options behind them. -/
def settingsOf (t : FileTree) (o : Options) : Except ScanFault Settings := do
  let settings ← match o.config with
    | some path => Settings.load t path
    | none => pure {}
  return { settings with
    scan := { settings.scan with
      acceptPackages := settings.scan.acceptPackages ++ o.acceptPackages
      rejectPackages := settings.scan.rejectPackages ++ o.rejectPackages } }

/-- The scan of a run: of the paths of the options, or else of those of the settings. -/
def scan (t : FileTree) (o : Options) (settings : Settings) : ScanResult × FileTree :=
  let (t, scanner) := Scanner.ofSettings t settings
  let (result, t, _) :=
    if o.paths.isEmpty then scanner.scanSettings t
    else scanner.scan t (o.paths.map fun path => [LoaderPaths.ofClassPath "cli" path])
  (result, t)

/-- The paths that a resource root names. -/
def resourcePaths (r : ResourceRoot) : List String :=
  let beside := do Path.join (← Path.parent? (← r.physicalFile)) (← r.name)
  [beside, r.physicalFile, r.pathName, r.mountSource, r.fileOfJar].filterMap id

/-- All paths that a run looks at or writes to. -/
def pathsOf (o : Options) (settings : Settings) : List String :=
  let s := settings.classPath
  let described := s.loaders.flatten.flatMap fun d =>
    d.paths ++ d.baseDir.toList ++ (d.modules.flatMap fun m => m.resourceRoots.flatMap resourcePaths)
  let given := o.paths.flatMap fun path => (LoaderPaths.splitClassPath path).map PathEntry.path
  let cache :=
    if settings.cache.enabled then [settings.cache.dir.getD ArchiveCache.defaultFolder] else []
  s.overrides ++ s.paths ++ described ++ given ++ cache ++ o.output.toList

/-! ## Telling -/

def summary (r : ScanResult) : List Line :=
  [.timed s!"Scanned {r.roots.length} roots, {r.entries} entries in " s!"s ({r.completion.title})",
    .plain (s!"Classes: {r.graph.nodes.length}, shadowed: {r.graph.shadowed.length}, " ++
      s!"dangling edges: {r.graph.dangling.length}, diagnostics: {r.diagnostics.length}")]

/-- A heading with the names of some classes below it. -/
def listing (heading : String) (nodes : List ClassNode) : List Line :=
  .plain heading :: nodes.map fun node => .plain ("  " ++ node.name)

/-- The dependencies of a class. -/
def dependencies (g : ClassGraph) (name : String) (accessibleOnly : Bool) :
    List Line × Except ScanFault (List Line) :=
  let (scope, title) : DependencyScope × String :=
    if accessibleOnly then (.accessibleOnly, "AccessibleOnly") else (.all, "All")
  (listing s!"Dependencies of {name} ({title}):" [], do
    let found ← g.dependencies name scope
    let lines := found.map fun node => Line.plain ("  " ++ node.name)
    if accessibleOnly then
      let visible ← g.dependenciesSeenBy name (.outsider name)
      return lines ++ [.plain s!"Visible to other packages: {visible.length}"]
    else return lines)

/-- Why a file cannot be written. -/
def writeFault (t : FileTree) (path : String) : String :=
  if t.isFolder path then "Is a directory (os error 21)"
  else if (Path.parent? path).any t.isFile then "Not a directory (os error 20)"
  else "No such file or directory (os error 2)"

/-- What a run tells of its scan. -/
def report (t : FileTree) (o : Options) (r : ScanResult) (milliseconds : Nat) : Outcome :=
  let (heading, found) :=
    match o.className with
    | some name => dependencies r.graph name o.accessibleOnly
    | none => ([], .ok [])
  match found with
  | .error fault => ⟨1, summary r ++ heading, ["Error: " ++ fault.message], t⟩
  | .ok found =>
    let carriers := match o.carriedType with
      | some name => listing s!"Classes annotated with {name}:" (r.graph.withAnnotation name)
      | none => []
    let subtypes := match o.supertype with
      | some name => listing s!"Subtypes of {name}:" (r.graph.directSubtypes name)
      | none => []
    let lines := summary r ++ heading ++ found ++ carriers ++ subtypes
    let last := Line.timed "Total execution time: " "s"
    match o.output with
    | none => ⟨0, lines ++ [last], [], t⟩
    | some path =>
      let text := Report.text (if o.full then .full else .compact) milliseconds r
      match t.write? path (Utf8.encode text.toList) with
      | some t => ⟨0, lines ++ [.plain ("JSON output: " ++ path), last], [], t⟩
      | none => ⟨1, lines, ["Error: " ++ writeFault t path], t⟩

/-- A run that takes no time. -/
def run (t : FileTree) (arguments : List String) : Outcome :=
  match parse arguments with
  | .error fault => ⟨2, [], ["error: " ++ fault.message], t⟩
  | .ok .help => ⟨0, help.map .plain, [], t⟩
  | .ok .version => ⟨0, [.plain version], [], t⟩
  | .ok (.scan o) =>
    match settingsOf t o with
    | .error fault => ⟨1, [], ["Error: " ++ fault.message], t⟩
    | .ok settings =>
      let (result, t) := scan t o settings
      report t o result 0

end ClassAtlas.CommandLine
