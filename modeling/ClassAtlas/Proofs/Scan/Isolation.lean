-- Failures in a scan stay where they are. Whatever is found in the roots, and in whatever order
-- workers get to it, a scan records each entry that it can read and takes in, and reports each
-- failure once.
import Mathlib.Data.List.Perm.Basic
import ClassAtlas.Proofs.ArchiveCache.Scanning
import ClassAtlas.Proofs.Entries.Flattening
import ClassAtlas.Proofs.Entries.Ordinals
import ClassAtlas.Proofs.Graph.Scheduling

namespace ClassAtlas

/-! ## What is found -/

/-- What is found in each root: entries, and faults in the place of what cannot be read. -/
abbrev Contents := ScanRoot → List (Except ScanFault FoundEntry)

/-- Something found in a root, with its number if it is an entry. -/
abbrev FoundItem := ScanRoot × Except ScanFault RootEntry

namespace FoundItem

def entry? : FoundItem → Option (ScanRoot × RootEntry)
  | (root, .ok e) => some (root, e)
  | (_, .error _) => none

def fault? : FoundItem → Option ScanFault
  | (_, .ok _) => none
  | (_, .error fault) => some fault

end FoundItem

namespace Contents

variable (found : Contents) (roots : List ScanRoot)

/-- How a scan sees the roots when this is found in them. -/
def view : RootView := ⟨fun root => numberEntries 0 (found root), fun _ => none⟩

/-- All that is found, root by root. -/
def items : List FoundItem := roots.flatMap fun root => (found.view.entries root).map (Prod.mk root)

def entries : List (ScanRoot × RootEntry) := (found.items roots).filterMap FoundItem.entry?

def faults : List ScanFault := (found.items roots).filterMap FoundItem.fault?

end Contents

/-- The result of a complete scan of roots in which this is found. -/
def ScanRules.plainScan (rules : ScanRules) (found : Contents) (roots : List ScanRoot)
    (missing : List Diagnostic) : ScanResult :=
  .ofYields roots missing (plainYields rules found.view roots) 0 .complete

/-! ## What becomes of an entry -/

namespace ScanRules

variable (rules : ScanRules)

/-- The definition that an entry gives: its bytes are a descriptor, and the filter takes in the
name of the class. -/
def definition? : ScanRoot × RootEntry → Option Definition
  | (root, e) =>
    match Descriptor.decode rules.decoding e.bytes with
    | .error _ => none
    | .ok d =>
      if rules.filter.classAccepted d.record.name then
        some ⟨d.record, ⟨root.rank, e.ordinal, root.path, e.name, e.location, root.module⟩⟩
      else none

/-- The report on an entry whose bytes are no descriptor. -/
def malformed? : ScanRoot × RootEntry → Option Diagnostic
  | (_, e) =>
    match Descriptor.decode rules.decoding e.bytes with
    | .error fault => some ⟨.malformedDescriptor e.location fault, some e.bytes⟩
    | .ok _ => none

/-- The reports on an entry that is read, one for each signature text that no parser takes. -/
def signatureReports : ScanRoot × RootEntry → List Diagnostic
  | (_, e) =>
    match Descriptor.decode rules.decoding e.bytes with
    | .error _ => []
    | .ok d => d.record.issues.map fun issue =>
        Diagnostic.ofFault (.malformedSignature e.location issue.context issue.fault)

/-- The graph of some entries. -/
def graphOf (entries : List (ScanRoot × RootEntry)) : ClassGraph :=
  (GraphBuilder.empty.recordAll (entries.filterMap rules.definition?)).finish.1

theorem definitions_yieldOfItem (x : FoundItem) :
    (rules.yieldOfItem x.2).classes.map x.1.definition = (x.entry?.bind rules.definition?).toList := by
  obtain ⟨root, fault | e⟩ := x
  · rfl
  · simp only [yieldOfItem, yieldOfEntry, FoundItem.entry?, Option.bind_some, definition?]
    cases Descriptor.decode rules.decoding e.bytes with
    | error fault => rfl
    | ok d =>
      dsimp only
      split <;> rfl

theorem diagnostics_yieldOfItem (x : FoundItem) :
    (rules.yieldOfItem x.2).diagnostics = x.fault?.toList.map Diagnostic.ofFault ++
      ((x.entry?.bind rules.malformed?).toList ++ x.entry?.toList.flatMap rules.signatureReports) := by
  obtain ⟨root, fault | e⟩ := x
  · rfl
  · simp only [yieldOfItem, yieldOfEntry, FoundItem.entry?, FoundItem.fault?, Option.bind_some,
      malformed?, signatureReports, Option.toList_some, List.flatMap_singleton]
    cases h : Descriptor.decode rules.decoding e.bytes with
    | error fault => rfl
    | ok d =>
      dsimp only
      rw [(Descriptor.normal_of_decode _ h).2]
      rfl

theorem entries_yieldOfItem (x : FoundItem) :
    (rules.yieldOfItem x.2).entries = x.entry?.toList.length := by
  obtain ⟨root, fault | e⟩ := x
  · rfl
  · unfold yieldOfItem yieldOfEntry
    dsimp only
    split <;> rfl

end ScanRules

/-! ## Workers -/

/-- What a worker of a scan does to what all workers share. -/
inductive ScanEvent
  | counted
  | reported (d : Diagnostic)
  | recorded (d : Definition)

namespace ScanEvent

def isCounted : ScanEvent → Bool
  | counted => true
  | _ => false

def reported? : ScanEvent → Option Diagnostic
  | reported d => some d
  | _ => none

def recorded? : ScanEvent → Option Definition
  | recorded d => some d
  | _ => none

end ScanEvent

/-- What a worker does with something found in a root. -/
def ScanRules.events (rules : ScanRules) (x : FoundItem) : List ScanEvent :=
  let y := rules.yieldOfItem x.2
  List.replicate y.entries .counted ++ (y.diagnostics.map .reported ++
    (y.classes.map x.1.definition).map .recorded)

/-- What all workers share. -/
structure Gathered where
  builder : GraphBuilder
  diagnostics : List Diagnostic
  entries : Nat

namespace Gathered

def empty : Gathered := ⟨GraphBuilder.empty, [], 0⟩

def step (g : Gathered) : ScanEvent → Gathered
  | .counted => { g with entries := g.entries + 1 }
  | .reported d => { g with diagnostics := g.diagnostics ++ [d] }
  | .recorded d => { g with builder := g.builder.record d }

/-- What is shared after some events, one after the other. -/
def run (g : Gathered) (events : List ScanEvent) : Gathered := events.foldl step g

/-- Each event changes one part, so each part is made of the events for it. -/
theorem run_eq (g : Gathered) (events : List ScanEvent) :
    g.run events = ⟨g.builder.recordAll (events.filterMap ScanEvent.recorded?),
      g.diagnostics ++ events.filterMap ScanEvent.reported?,
      g.entries + events.countP ScanEvent.isCounted⟩ := by
  induction events generalizing g with
  | nil => simp [run, GraphBuilder.recordAll]
  | cons event rest ih =>
    show (g.step event).run rest = _
    rw [ih]
    cases event with
    | counted =>
      rw [List.countP_cons_of_pos rfl, Nat.add_comm _ 1, ← Nat.add_assoc]
      rfl
    | reported d =>
      rw [List.countP_cons_of_neg (by simp [ScanEvent.isCounted])]
      simp only [step, List.append_assoc]
      rfl
    | recorded d =>
      rw [List.countP_cons_of_neg (by simp [ScanEvent.isCounted])]
      rfl

end Gathered

/-! ## A scan as a run of events -/

namespace RootYield

theorem diagnostics_join (yields : List RootYield) :
    (join yields).diagnostics = yields.flatMap diagnostics := by
  induction yields with
  | nil => rfl
  | cons y rest ih =>
    rw [List.flatMap_cons, ← ih]
    rfl

theorem entries_join (yields : List RootYield) : (join yields).entries = (yields.map entries).sum := by
  induction yields with
  | nil => rfl
  | cons y rest ih =>
    rw [List.map_cons, List.sum_cons, ← ih]
    rfl

end RootYield

namespace ScanRules

variable (rules : ScanRules) (found : Contents) (roots : List ScanRoot)

theorem recorded_events (x : FoundItem) : (rules.events x).filterMap ScanEvent.recorded? =
    (rules.yieldOfItem x.2).classes.map x.1.definition := by
  simp [events, ScanEvent.recorded?, Function.comp_def]

theorem reported_events (x : FoundItem) : (rules.events x).filterMap ScanEvent.reported? =
    (rules.yieldOfItem x.2).diagnostics := by
  simp [events, ScanEvent.reported?, Function.comp_def]

theorem counted_events (x : FoundItem) : (rules.events x).countP ScanEvent.isCounted =
    (rules.yieldOfItem x.2).entries := by
  simp [events, ScanEvent.isCounted, List.countP_map, List.countP_replicate, Function.comp_def]

/-- All events of a scan, in the order of what is found. -/
def allEvents : List ScanEvent := (found.items roots).flatMap rules.events

theorem recorded_allEvents : (rules.allEvents found roots).filterMap ScanEvent.recorded? =
    definitionsOf roots (plainYields rules found.view roots) := by
  have hzip : roots.zip (plainYields rules found.view roots) =
      roots.map fun root => (root, rules.yieldOf (found.view.entries root)) :=
    List.map_prod_left_eq_zip.symm
  unfold definitionsOf
  rw [hzip]
  simp only [allEvents, Contents.items, List.filterMap_flatMap, List.flatMap_map, List.flatMap_assoc,
    List.map_flatMap, recorded_events, yieldOf, RootYield.classes_join]

theorem reported_allEvents : (rules.allEvents found roots).filterMap ScanEvent.reported? =
    (plainYields rules found.view roots).flatMap RootYield.diagnostics := by
  simp only [allEvents, plainYields, Contents.items, List.filterMap_flatMap, List.flatMap_map,
    List.flatMap_assoc, reported_events, yieldOf, RootYield.diagnostics_join]

theorem counted_allEvents : (rules.allEvents found roots).countP ScanEvent.isCounted =
    ((plainYields rules found.view roots).map RootYield.entries).sum := by
  simp only [allEvents, plainYields, Contents.items, List.countP_flatMap, List.flatMap_map,
    List.flatMap_assoc, List.map_map, Function.comp_def, counted_events, yieldOf, RootYield.entries_join]

/-- A scan gives what its workers gather in the order of what is found. -/
theorem plainScan_eq (missing : List Diagnostic) : let g := Gathered.empty.run (rules.allEvents found roots)
    (rules.plainScan found roots missing).graph = g.builder.finish.1 ∧
      (rules.plainScan found roots missing).entries = g.entries ∧
      (rules.plainScan found roots missing).diagnostics =
        missing ++ g.diagnostics ++ g.builder.finish.2 := by
  rw [Gathered.run_eq, recorded_allEvents, reported_allEvents, counted_allEvents]
  refine ⟨rfl, (Nat.zero_add _).symm, ?_⟩
  unfold plainScan ScanResult.ofYields
  simp [Completion.diagnostics, Gathered.empty]

/-! ## What a scan gives -/

theorem recorded_eq : (rules.allEvents found roots).filterMap ScanEvent.recorded? =
    (found.entries roots).filterMap rules.definition? := by
  unfold allEvents Contents.entries
  rw [List.filterMap_flatMap, List.filterMap_filterMap, List.filterMap_eq_flatMap_toList]
  simp only [recorded_events, definitions_yieldOfItem]

theorem counted_eq :
    (rules.allEvents found roots).countP ScanEvent.isCounted = (found.entries roots).length := by
  unfold allEvents Contents.entries
  rw [List.countP_flatMap, List.filterMap_eq_flatMap_toList, List.length_flatMap]
  simp only [Function.comp_def, counted_events, entries_yieldOfItem]

/-- The reports of a scan, sorted by what failed. -/
theorem reported_perm : ((rules.allEvents found roots).filterMap ScanEvent.reported?).Perm
    ((found.faults roots).map Diagnostic.ofFault ++ ((found.entries roots).filterMap rules.malformed? ++
      (found.entries roots).flatMap rules.signatureReports)) := by
  have hfaults : (found.faults roots).map Diagnostic.ofFault =
      (found.items roots).flatMap fun x => x.fault?.toList.map Diagnostic.ofFault := by
    rw [Contents.faults, List.filterMap_eq_flatMap_toList, List.map_flatMap]
  have hmalformed : (found.entries roots).filterMap rules.malformed? =
      (found.items roots).flatMap fun x => (x.entry?.bind rules.malformed?).toList := by
    rw [Contents.entries, List.filterMap_filterMap, List.filterMap_eq_flatMap_toList]
  have hsignatures : (found.entries roots).flatMap rules.signatureReports =
      (found.items roots).flatMap fun x => x.entry?.toList.flatMap rules.signatureReports := by
    rw [Contents.entries, List.filterMap_eq_flatMap_toList, List.flatMap_assoc]
  rw [hfaults, hmalformed, hsignatures, allEvents, List.filterMap_flatMap]
  simp only [reported_events, diagnostics_yieldOfItem]
  -- The reports of one item stand together there, and are sorted here.
  refine (List.flatMap_append_perm _ _ _).symm.trans (List.Perm.append_left _ ?_)
  exact (List.flatMap_append_perm _ _ _).symm

end ScanRules

/-! ## The numbers of entries -/

/-- The entries among some items of a root, the first one being numbered `n`. -/
def ScanRoot.numbered (root : ScanRoot) (n : Nat) (items : List (Except ScanFault FoundEntry)) :
    List (ScanRoot × RootEntry) :=
  ((numberEntries n items).map (Prod.mk root)).filterMap FoundItem.entry?

theorem Contents.entries_eq (found : Contents) (roots : List ScanRoot) :
    found.entries roots = roots.flatMap fun root => root.numbered 0 (found root) :=
  List.filterMap_flatMap

theorem ScanRoot.numbered_eq (root : ScanRoot) (n : Nat)
    (items : List (Except ScanFault FoundEntry)) :
    root.numbered n items = (FoundEntry.numbered n (taken items)).map (Prod.mk root) := by
  rw [← taken_numberEntries, taken, List.map_filterMap, numbered, List.filterMap_map]
  refine List.filterMap_congr fun item _ => ?_
  cases item <;> rfl

theorem of_mem_numbered {root : ScanRoot} {n : Nat} {items : List (Except ScanFault FoundEntry)}
    {x : ScanRoot × RootEntry} (h : x ∈ root.numbered n items) : x.1 = root ∧ n ≤ x.2.ordinal := by
  rw [root.numbered_eq] at h
  obtain ⟨e, he, rfl⟩ := List.mem_map.mp h
  have hordinal := List.mem_map_of_mem (f := RootEntry.ordinal) he
  rw [FoundEntry.map_ordinal_numbered] at hordinal
  exact ⟨rfl, (List.mem_range'_1.mp hordinal).1⟩

theorem pairwise_numbered (root : ScanRoot) (n : Nat) (items : List (Except ScanFault FoundEntry)) :
    (root.numbered n items).Pairwise fun a b => a.2.ordinal ≠ b.2.ordinal := by
  rw [root.numbered_eq, List.pairwise_map]
  exact List.pairwise_map.mp (FoundEntry.nodup_map_ordinal_numbered n (taken items))

/-- No two entries arrive at the same place when no two roots have the same rank. -/
theorem Contents.pairwise_entries {found : Contents} {roots : List ScanRoot}
    (hranks : (roots.map ScanRoot.rank).Nodup) : (found.entries roots).Pairwise fun a b =>
      (a.1.rank, a.2.ordinal) ≠ (b.1.rank, b.2.ordinal) := by
  rw [Contents.entries_eq, List.pairwise_flatMap]
  constructor
  · intro root _
    exact (pairwise_numbered root 0 (found root)).imp fun hne heq => hne (Prod.mk.inj heq).2
  · refine (List.pairwise_map.mp hranks).imp fun {a b} hne x hx y hy heq => hne ?_
    rw [← (of_mem_numbered hx).1, ← (of_mem_numbered hy).1]
    exact (Prod.mk.inj heq).1

namespace ScanRules

variable {rules : ScanRules} {found : Contents} {roots : List ScanRoot} {missing : List Diagnostic}

theorem arrival_definition {x : ScanRoot × RootEntry} {d : Definition} (h : rules.definition? x = some d) :
    d.arrival = (x.1.rank, x.2.ordinal) := by
  obtain ⟨root, e⟩ := x
  unfold definition? at h
  dsimp only at h
  split at h
  · cases h
  · split at h <;> cases h
    rfl

theorem nodup_definitions (hranks : (roots.map ScanRoot.rank).Nodup) :
    (((found.entries roots).filterMap rules.definition?).map Definition.arrival).Nodup := by
  rw [List.Nodup, List.pairwise_map, List.pairwise_filterMap]
  refine (Contents.pairwise_entries hranks).imp fun {a b} hne c hc d hd heq => hne ?_
  rw [← arrival_definition hc, ← arrival_definition hd, heq]

/-- What a scan gives when failures stay with their entries. -/
structure Isolates (rules : ScanRules) (found : Contents) (roots : List ScanRoot)
    (missing : List Diagnostic) (result : ScanResult) : Prop where
  /-- The graph is that of the entries that are read and taken in. -/
  graph : result.graph = rules.graphOf (found.entries roots)
  /-- All entries count. -/
  entries : result.entries = (found.entries roots).length
  /-- Each failure is reported once. The other reports are those of the class path and of
  cycles. -/
  diagnostics : ∃ cyclic : List String, result.diagnostics.Perm (missing ++
    ((found.faults roots).map Diagnostic.ofFault ++ ((found.entries roots).filterMap rules.malformed? ++
      (found.entries roots).flatMap rules.signatureReports)) ++
    cyclic.map fun name => Diagnostic.ofFault (.cyclicHierarchy name))
  /-- The workers may do all this in any order. -/
  anyOrder : (roots.map ScanRoot.rank).Nodup → ∀ events, events.Perm (rules.allEvents found roots) →
    let g := Gathered.empty.run events
    g.builder.finish.1 = result.graph ∧ g.entries = result.entries ∧
      (missing ++ g.diagnostics ++ g.builder.finish.2).Perm result.diagnostics

theorem finish_of_events (hranks : (roots.map ScanRoot.rank).Nodup) {events : List ScanEvent}
    (hperm : events.Perm (rules.allEvents found roots)) :
    (GraphBuilder.empty.recordAll (events.filterMap ScanEvent.recorded?)).finish =
      (GraphBuilder.empty.recordAll ((found.entries roots).filterMap rules.definition?)).finish := by
  have hrecorded := hperm.filterMap ScanEvent.recorded?
  rw [recorded_eq] at hrecorded
  have hholds := GraphBuilder.holds_run (events.filterMap ScanEvent.recorded?)
  exact GraphBuilder.finishWith_eq (hholds.perm (List.Perm.refl _) hrecorded)
    (nodup_definitions hranks) (GraphBuilder.holds_run _) _

/-- Finishing a graph reports nothing but cycles. -/
theorem finish_reports (b : GraphBuilder) : ∃ cyclic : List String,
    b.finish.2 = cyclic.map fun name => Diagnostic.ofFault (.cyclicHierarchy name) := ⟨_, rfl⟩

theorem isolates : rules.Isolates found roots missing (rules.plainScan found roots missing) := by
  obtain ⟨hgraph, hentries, hdiagnostics⟩ := plainScan_eq rules found roots missing
  rw [Gathered.run_eq] at hgraph hentries hdiagnostics
  dsimp only [Gathered.empty, List.nil_append] at hgraph hentries hdiagnostics
  constructor
  case graph =>
    rw [hgraph, recorded_eq]
    rfl
  case entries => rw [hentries, counted_eq, Nat.zero_add]
  case diagnostics =>
    obtain ⟨cyclic, hcyclic⟩ := finish_reports (GraphBuilder.empty.recordAll
      ((rules.allEvents found roots).filterMap ScanEvent.recorded?))
    refine ⟨cyclic, ?_⟩
    rw [hdiagnostics, hcyclic]
    exact ((reported_perm rules found roots).append_left missing).append_right _
  case anyOrder =>
    -- The graph depends on the definitions only up to their order, since no two arrive together.
    intro hranks events hperm g
    have hsame := finish_of_events hranks hperm
    have hg : g = _ := Gathered.run_eq Gathered.empty events
    rw [hgraph, hentries, hdiagnostics, hg, recorded_eq]
    dsimp only [Gathered.empty, List.nil_append]
    rw [hsame, hperm.countP_eq]
    refine ⟨rfl, rfl, ?_⟩
    exact ((hperm.filterMap _).append_left missing).append_right _

end ScanRules

/-! ## Other bytes for one entry -/

/-- Gives other bytes to the entry with `n` entries before it. -/
def replaceBytes (junk : Bytes) : Nat → List (Except ScanFault FoundEntry) → List (Except ScanFault FoundEntry)
  | _, [] => []
  | n, .error fault :: rest => .error fault :: replaceBytes junk n rest
  | 0, .ok e :: rest => .ok { e with bytes := junk } :: rest
  | n + 1, .ok e :: rest => .ok e :: replaceBytes junk n rest

/-- The same contents with other bytes for the entry of that number in a root. -/
def Contents.withBytes (found : Contents) (root : ScanRoot) (n : Nat) (junk : Bytes) : Contents :=
  Function.update found root (replaceBytes junk n (found root))

/-- The entry itself with the other bytes. -/
def ScanRoot.withBytes (root : ScanRoot) (n : Nat) (junk : Bytes) (x : ScanRoot × RootEntry) :
    ScanRoot × RootEntry :=
  if x.1 = root ∧ x.2.ordinal = n then (x.1, { x.2 with bytes := junk }) else x

theorem map_withBytes {root : ScanRoot} {n : Nat} {junk : Bytes} {entries : List (ScanRoot × RootEntry)}
    (h : ∀ x ∈ entries, ¬ (x.1 = root ∧ x.2.ordinal = n)) :
    entries.map (root.withBytes n junk) = entries :=
  (List.map_congr_left fun x hx => if_neg (h x hx)).trans (List.map_id entries)

theorem numbered_replaceBytes (root : ScanRoot) (junk : Bytes) (n k : Nat)
    (items : List (Except ScanFault FoundEntry)) :
    root.numbered k (replaceBytes junk n items) =
      (root.numbered k items).map (root.withBytes (k + n) junk) := by
  induction items generalizing n k with
  | nil => cases n <;> rfl
  | cons item rest ih =>
    cases item with
    | error fault => cases n <;> exact ih _ k
    | ok e =>
      cases n with
      | zero =>
        -- The entries behind it have higher numbers, so none of them is touched.
        have hrest : (root.numbered (k + 1) rest).map (root.withBytes k junk) =
            root.numbered (k + 1) rest :=
          map_withBytes fun x hx h => Nat.ne_of_gt (of_mem_numbered hx).2 h.2
        show (root, _) :: root.numbered (k + 1) rest =
          root.withBytes k junk (root, _) :: (root.numbered (k + 1) rest).map (root.withBytes k junk)
        rw [hrest, ScanRoot.withBytes, if_pos ⟨rfl, rfl⟩]
      | succ n =>
        show (root, _) :: root.numbered (k + 1) (replaceBytes junk n rest) =
          root.withBytes (k + (n + 1)) junk (root, _) ::
            (root.numbered (k + 1) rest).map (root.withBytes (k + (n + 1)) junk)
        rw [ih n (k + 1), ScanRoot.withBytes, if_neg (by simp), Nat.add_right_comm, Nat.add_assoc]

theorem Contents.entries_withBytes (found : Contents) (roots : List ScanRoot) (root : ScanRoot) (n : Nat)
    (junk : Bytes) :
    (found.withBytes root n junk).entries roots = (found.entries roots).map (root.withBytes n junk) := by
  rw [Contents.entries_eq, Contents.entries_eq, List.map_flatMap]
  refine List.flatMap_congr fun other _ => ?_
  by_cases heq : other = root
  · subst heq
    rw [Contents.withBytes, Function.update_self, numbered_replaceBytes, Nat.zero_add]
  · rw [Contents.withBytes, Function.update_of_ne heq]
    exact (map_withBytes fun x hx h => heq ((of_mem_numbered hx).1.symm.trans h.1)).symm

/-! ## Scans -/

/-- What a tree has in each root, with its archives opened by `openArchive`. -/
def FileTree.contents (openArchive : OpenArchive) (t : FileTree) (rules : ScanRules) : Contents :=
  fun root =>
  match root.kind with
  | .directory => folderEntries t rules.filter root.path
  | .archive => archiveEntries openArchive rules.filter rules.nesting root.path (t.read? root.path)

namespace Scanner

/-- The faults of the class path of a scan. -/
def missing (s : Scanner) (t : FileTree) (chains : List LoaderChain) : List Diagnostic :=
  ClassPath.missing t.lookup (ClassPath.entries s.settings.classPath.overrides chains)

/-- The rank of a root is its place among all of them. -/
theorem nodup_rank_roots (s : Scanner) (t : FileTree) (chains : List LoaderChain) :
    ((s.roots t chains).map ScanRoot.rank).Nodup := by
  unfold roots ClassPath.roots
  rw [List.map_map]
  show (List.map Prod.snd _).Nodup
  rw [List.zipIdx_map_snd]
  exact List.nodup_range'

theorem view_contents (openArchive : OpenArchive) (t : FileTree) (rules : ScanRules) :
    (t.contents openArchive rules).view.entries = (t.rootView openArchive rules).entries := by
  funext root
  exact (rootEntriesWith_eq openArchive t rules.filter rules.nesting root.kind root.path).symm

theorem scan_eq_plainScan {s : Scanner} (hcomplete : s.completion = .complete) (hcache : s.cache = none)
    (openArchive : OpenArchive) (t : FileTree) (chains : List LoaderChain) :
    let rules := s.settings.scan.rules
    (s.scanWith openArchive t chains).1 =
      rules.plainScan (t.contents openArchive rules) (s.roots t chains) (s.missing t chains) := by
  unfold scanWith ScanRules.plainScan plainYields
  simp only [hcomplete, hcache, view_contents]
  rfl

end Scanner

namespace ScanRules

/-- Failures stay with their entries. A complete scan without a cache takes what its tree has in
its roots. Whatever is found in roots, the graph is that of the entries that are read and taken
in, each failure is reported once, and no order of the workers changes this. So with bytes that
are no descriptor in the place of an entry, the graph is that of the other entries. -/
theorem failures_stay_with_their_entries :
    (∀ (openArchive : OpenArchive) (s : Scanner) (t : FileTree) (chains : List LoaderChain),
      s.completion = .complete → s.cache = none →
        let rules := s.settings.scan.rules
        (s.scanWith openArchive t chains).1 =
          rules.plainScan (t.contents openArchive rules) (s.roots t chains) (s.missing t chains) ∧
        ((s.roots t chains).map ScanRoot.rank).Nodup) ∧
    ∀ (rules : ScanRules) (found : Contents) (roots : List ScanRoot) (missing : List Diagnostic),
      rules.Isolates found roots missing (rules.plainScan found roots missing) ∧
      ∀ (root : ScanRoot) (n : Nat) (junk : Bytes) (fault : DescriptorFault),
        Descriptor.decode rules.decoding junk = .error fault →
          (rules.plainScan (found.withBytes root n junk) roots missing).graph =
            rules.graphOf ((found.entries roots).filter fun x => ¬ (x.1 = root ∧ x.2.ordinal = n)) := by
  refine ⟨fun openArchive s t chains hcomplete hcache =>
    ⟨Scanner.scan_eq_plainScan hcomplete hcache openArchive t chains,
      Scanner.nodup_rank_roots s t chains⟩, fun rules found roots missing => ⟨isolates, ?_⟩⟩
  intro root n junk fault hjunk
  rw [isolates.graph, Contents.entries_withBytes, graphOf, graphOf, List.filterMap_map,
    List.filterMap_filter]
  have hothers : rules.definition? ∘ root.withBytes n junk = fun x =>
      if decide (¬ (x.1 = root ∧ x.2.ordinal = n)) then rules.definition? x else none := by
    funext x
    by_cases hx : x.1 = root ∧ x.2.ordinal = n
    · simp [ScanRoot.withBytes, hx, definition?, hjunk]
    · simp [ScanRoot.withBytes, hx]
  rw [hothers]

/-- A folder with two crates and something that cannot be read between them. -/
def loft : Contents := fun _ =>
  [.ok ⟨"Crate.class", "/loft/Crate.class", Descriptor.encode Descriptor.crate⟩,
    .error (.unreadable "/loft/box.jar"),
    .ok ⟨"Copy.class", "/loft/Copy.class", Descriptor.encode Descriptor.crate⟩]

def loftRoot : ScanRoot := ⟨"/loft", .directory, 0, none⟩

/-- A scanner without a cache that looks into that folder. -/
def loftScanner : Scanner where
  settings := { classPath := { overrides := ["/loft"] } }

def loftTree : FileTree where
  nodes := [(["loft"], .folder), (["loft", "Crate.class"], .file (Descriptor.encode Descriptor.crate) 1)]

theorem a_torn_copy_leaves_the_crate :
    let rules := loftScanner.settings.scan.rules
    (loftScanner.scanWith Zip.items? loftTree []).1 = rules.plainScan (loftTree.contents Zip.items? rules)
      (loftScanner.roots loftTree []) (loftScanner.missing loftTree []) ∧
    (Gathered.empty.run (rules.allEvents loft [loftRoot]).reverse).builder.finish.1 =
      (rules.plainScan loft [loftRoot] []).graph ∧
    (rules.plainScan (loft.withBytes loftRoot 1 [0xCA]) [loftRoot] []).graph =
      rules.graphOf ((loft.entries [loftRoot]).filter fun x => ¬ (x.1 = loftRoot ∧ x.2.ordinal = 1)) := by
  intro rules
  have hjunk : Descriptor.decode rules.decoding [0xCA] = .error (.unexpectedEnd 0) := rfl
  obtain ⟨hscan, hroots⟩ := failures_stay_with_their_entries
  obtain ⟨hisolates, hothers⟩ := hroots rules loft [loftRoot] []
  have hreverse := hisolates.anyOrder (by decide) _ (List.reverse_perm _)
  exact ⟨(hscan Zip.items? loftScanner loftTree [] rfl rfl).1, hreverse.1, hothers loftRoot 1 [0xCA] _ hjunk⟩

example : let rules := loftScanner.settings.scan.rules
    let result := rules.plainScan (loft.withBytes loftRoot 1 [0xCA]) [loftRoot] []
    (result.graph.nodes.map ClassNode.name, result.entries, result.diagnostics.map fun d => d.fault.label) =
      (["store.Crate"], 2, ["MalformedSignature", "ArchiveRead", "MalformedDescriptor"]) := by
  decide +kernel

end ScanRules

end ClassAtlas
