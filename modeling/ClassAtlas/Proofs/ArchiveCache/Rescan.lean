-- Two scans that share a folder of cache files. The first one keeps exactly the archives in
-- which it found no fault, and the second one has exactly those of them out of the folder
-- that have the same stamp and that it looks at by the same filter. How classes are read and
-- how deep a scan looks is not compared, so the second scan may tell what the first one saw.
import ClassAtlas.Proofs.ArchiveCache.Scanning
import ClassAtlas.Proofs.Filter.Fingerprint

namespace ClassAtlas

open CacheMemory (key)
open ClassAtlas.Path (IsCanonical)

variable {openArchive : OpenArchive}

/-! ## What the files tell -/

section

variable {σ : Type} {files : CacheFiles σ} {v : Sight openArchive} {root : ScanRoot}

/-- What the files tell of a root, if it is an archive and its file is current. -/
def CacheFiles.told? (files : CacheFiles σ) (s : σ) (v : Sight openArchive) (root : ScanRoot) :
    Option CachedArchive :=
  if root.isArchive then
    ((files.read? s root.path).bind CachedArchive.ofBytes?).filter fun a =>
      v.tree.stamp? root.path = some a.stamp && a.fingerprint = v.rules.filter.fingerprint
  else none

/-- What a root gives, and whether it came out of a cache, if this was told of it. -/
def Sight.answer (v : Sight openArchive) (root : ScanRoot) : Option CachedArchive → RootYield × Bool
  | some a => (a.toYield, true)
  | none => (v.yield root, false)

theorem told?_eq_some {s : σ} {a : CachedArchive} : files.told? s v root = some a ↔
    root.isArchive = true ∧ files.Holds s root.path a ∧ v.tree.stamp? root.path = some a.stamp ∧
      a.fingerprint = v.rules.filter.fingerprint := by
  unfold CacheFiles.told?
  split
  · rename_i harchive
    rw [Option.filter_eq_some_iff, Bool.and_eq_true, decide_eq_true_eq, decide_eq_true_eq]
    exact (and_iff_right harchive).symm
  · rename_i hfolder
    exact ⟨nofun, fun h => absurd h.1 hfolder⟩

/-! ## One root -/

/-- Two states of a cache that tell the same of an archive, but for what its memory lost. -/
structure CacheFiles.Frame (files : CacheFiles σ) (path : String) (state state' : σ × CacheMemory) :
    Prop where
  read? : files.read? state'.1 path = files.read? state.1 path
  memory : ∀ {a}, (key path, a) ∈ state'.2 → (key path, a) ∈ state.2

theorem CacheFiles.Frame.told? {state state' : σ × CacheMemory}
    (h : files.Frame root.path state state') : files.told? state'.1 v root = files.told? state.1 v root := by
  unfold CacheFiles.told?
  rw [h.read?]

theorem CacheFiles.Frame.holds {state state' : σ × CacheMemory} {path : String} {a : CachedArchive}
    (h : files.Frame path state state') : files.Holds state'.1 path a ↔ files.Holds state.1 path a := by
  unfold CacheFiles.Holds
  rw [h.read?]

theorem CacheMemory.frame_insert {state state' : σ × CacheMemory} {memory : CacheMemory}
    {path other : String} {a : CachedArchive}
    (hread : files.read? state'.1 other = files.read? state.1 other)
    (hmemory : state'.2 = memory.insert path a) (hold : ∀ entry ∈ memory, entry ∈ state.2)
    (hkey : key other ≠ key path) : files.Frame other state state' := by
  refine ⟨hread, fun {b} hb => ?_⟩
  rw [hmemory] at hb
  rcases mem_insert hb with hnew | hb
  · exact absurd (Prod.mk.inj hnew).1 hkey
  · exact hold _ hb

variable {state : σ × CacheMemory} {after : (RootYield × Bool) × (σ × CacheMemory)}

/-- A root leaves what the cache tells of other archives. -/
theorem RootStep.frame {Safe : σ → Prop} (hfiles : files.Separate Safe)
    (h : RootStep files v state root after) (hsafe : Safe state.1) {path : String}
    (hkey : key path ≠ key root.path) : files.Frame path state after.2 := by
  cases h with
  | folder => exact ⟨rfl, id⟩
  | faulty => exact ⟨rfl, id⟩
  | unstored => exact ⟨rfl, id⟩
  | kept harchive hfind =>
    obtain ⟨-, -, -, hmemory⟩ := CacheMemory.find_eq_some hfind
    rcases hmemory with rfl | rfl
    · exact ⟨rfl, id⟩
    · exact CacheMemory.frame_insert rfl rfl (fun _ => id) hkey
  | stored harchive hclean hfind hstore =>
    obtain ⟨_, -, hwrite, hmemory⟩ := CacheMemory.store?_eq_some hstore
    have hread := hfiles.read?_other hsafe hwrite hkey
    exact CacheMemory.frame_insert hread hmemory (fun _ => CacheMemory.mem_makeRoom) hkey

/-- A root that is not in memory gives what the files tell. -/
theorem RootStep.answer (h : RootStep files v state root after)
    (hmemory : ∀ a, (key root.path, a) ∉ state.2) :
    after.1 = v.answer root (files.told? state.1 v root) := by
  have hnone : ∀ {memory}, state.2.find files state.1 root.path (v.view.stamp? root.path)
      v.rules.filter.fingerprint = (none, memory) → files.told? state.1 v root = none := by
    intro memory hfind
    rw [Option.eq_none_iff_forall_not_mem]
    intro a ha
    obtain ⟨_, hholds, hstamp, hprint⟩ := told?_eq_some.mp ha
    exact (CacheMemory.find_eq_none hfind).2 a hholds hstamp hprint
  cases h with
  | folder hfolder =>
    rw [CacheFiles.told?, hfolder]
    rfl
  | kept harchive hfind =>
    obtain ⟨hstamp, hprint, hholds, -⟩ := CacheMemory.find_eq_some hfind
    have htold := told?_eq_some.mpr ⟨harchive, hholds.resolve_left (hmemory _), hstamp, hprint⟩
    rw [htold]
    rfl
  | faulty _ _ hfind =>
    rw [hnone hfind]
    rfl
  | unstored _ _ hfind =>
    rw [hnone hfind]
    rfl
  | stored _ _ hfind =>
    rw [hnone hfind]
    rfl

/-- What a scan keeps of a root: all that it gives, if it is an archive without a fault. -/
structure Sight.Keeps (v : Sight openArchive) (root : ScanRoot) (a : CachedArchive) : Prop where
  archive : root.isArchive = true
  clean : (v.yield root).diagnostics = []
  stamp : v.tree.stamp? root.path = some a.stamp
  fingerprint : a.fingerprint = v.rules.filter.fingerprint
  toYield : a.toYield = v.yield root

theorem Sight.keeps_iff (harchive : root.isArchive = true) (hclean : (v.yield root).diagnostics = [])
    {stamp : Stamp} (hstamp : v.tree.stamp? root.path = some stamp) {a : CachedArchive} :
    v.Keeps root a ↔ a = ⟨(v.yield root).classes, (v.yield root).entries, stamp,
      v.rules.filter.fingerprint⟩ := by
  constructor
  · intro h
    obtain ⟨classes, entries, stamp', fingerprint⟩ := a
    obtain rfl : stamp = stamp' := Option.some.inj (hstamp.symm.trans h.stamp)
    obtain rfl : fingerprint = v.rules.filter.fingerprint := h.fingerprint
    rw [← h.toYield]
    rfl
  · rintro rfl
    exact ⟨harchive, hclean, hstamp, rfl, CachedArchive.toYield_of_clean hclean _ _⟩

/-- A root that the cache does not know: then the files hold what the scan keeps of it, and of
other archives what they held. -/
theorem RootStep.holds_iff {Safe : σ → Prop} (hfiles : files.Reliable Safe)
    (h : RootStep files v state root after) (hsafe : Safe state.1)
    (hmemory : ∀ a, (key root.path, a) ∉ state.2) (hfresh : ∀ a, ¬ files.Holds state.1 root.path a)
    (hroot : IsCanonical root.path) {path : String} (hpath : IsCanonical path) {a : CachedArchive} :
    files.Holds after.2.1 path a ↔
      files.Holds state.1 path a ∨ root.path = path ∧ v.Keeps root a := by
  by_cases hkey : key path = key root.path
  · obtain rfl := CacheMemory.key_injective hpath hroot hkey
    rw [or_iff_right (hfresh a), and_iff_right rfl]
    cases h with
    | folder hfolder =>
      exact ⟨fun h => absurd h (hfresh a), fun h => absurd h.archive (by simp [hfolder])⟩
    | kept harchive hfind =>
      obtain ⟨-, -, hholds, -⟩ := CacheMemory.find_eq_some hfind
      exact (hholds.elim (hmemory _) (hfresh _)).elim
    | faulty harchive hfault hfind =>
      exact ⟨fun h => absurd h (hfresh a), fun h => absurd h.clean hfault⟩
    | unstored harchive hclean hfind hstore =>
      refine ⟨fun h => absurd h (hfresh a), fun h => ?_⟩
      have hstamp : v.view.stamp? root.path = some a.stamp := h.stamp
      obtain ⟨state', hstate'⟩ := CacheMemory.exists_store? (hfiles.exists_write? hsafe _) hstamp
      rw [hstate'] at hstore
      cases hstore
    | stored harchive hclean hfind hstore =>
      obtain ⟨stamp, hstamp, hwrite, -⟩ := CacheMemory.store?_eq_some hstore
      rw [Sight.keeps_iff harchive hclean hstamp, CacheFiles.Holds,
        hfiles.read?_written hsafe hwrite, Option.bind_some,
        CachedArchive.ofBytes?_toBytes ScanRules.consistent_yieldOf, Option.some.injEq]
      exact eq_comm
  · have hother : ¬ (root.path = path ∧ v.Keeps root a) := fun h => hkey (by rw [h.1])
    rw [or_iff_left hother]
    exact (h.frame hfiles.toSeparate hsafe hkey).holds

/-! ## All roots -/

/-- The roots of a class path that are not in memory give what the files told before them. -/
theorem cachedYields_answer {Safe : σ → Prop} (hfiles : files.Separate Safe)
    {roots : List ScanRoot} (hsafe : Safe state.1)
    (hroots : roots.Pairwise fun a b => key a.path ≠ key b.path)
    (hmemory : ∀ root ∈ roots, ∀ a, (key root.path, a) ∉ state.2) :
    (cachedYields files v.rules v.view state roots).1 =
      roots.map fun root => v.answer root (files.told? state.1 v root) := by
  induction roots generalizing state with
  | nil => rfl
  | cons root rest ih =>
    obtain ⟨hfirst, hrest⟩ := List.pairwise_cons.mp hroots
    have hstep := cachedYield_step files v state root
    have hframe : ∀ r ∈ rest, files.Frame r.path state (cachedYield files v.rules v.view state root).2 :=
      fun r hr => hstep.frame hfiles hsafe (hfirst r hr).symm
    have hothers := ih (hstep.safe hfiles hsafe) hrest fun r hr a ha =>
      hmemory r (List.mem_cons_of_mem _ hr) a ((hframe r hr).memory ha)
    rw [List.map_cons, ← hstep.answer (hmemory root List.mem_cons_self)]
    refine congrArg _ (hothers.trans (List.map_congr_left fun r hr => ?_))
    rw [(hframe r hr).told?]

/-- After roots that the cache does not know the files hold what they held, and what the scan
keeps of these roots. -/
theorem cachedYields_holds_iff {Safe : σ → Prop} (hfiles : files.Reliable Safe)
    {roots : List ScanRoot} (hsafe : Safe state.1)
    (hroots : roots.Pairwise fun a b => key a.path ≠ key b.path)
    (hcanonical : ∀ root ∈ roots, IsCanonical root.path)
    (hmemory : ∀ root ∈ roots, ∀ a, (key root.path, a) ∉ state.2)
    (hfresh : ∀ root ∈ roots, ∀ a, ¬ files.Holds state.1 root.path a)
    {path : String} (hpath : IsCanonical path) {a : CachedArchive} :
    files.Holds (cachedYields files v.rules v.view state roots).2.1 path a ↔
      files.Holds state.1 path a ∨ ∃ root ∈ roots, root.path = path ∧ v.Keeps root a := by
  induction roots generalizing state with
  | nil => exact ⟨Or.inl, fun h => h.elim id fun ⟨_, hroot, _⟩ => nomatch hroot⟩
  | cons root rest ih =>
    obtain ⟨hfirst, hrest⟩ := List.pairwise_cons.mp hroots
    have hstep := cachedYield_step files v state root
    have hframe : ∀ r ∈ rest, files.Frame r.path state (cachedYield files v.rules v.view state root).2 :=
      fun r hr => hstep.frame hfiles.toSeparate hsafe (hfirst r hr).symm
    have hend := ih (hstep.safe hfiles.toSeparate hsafe) hrest
      (fun r hr => hcanonical r (List.mem_cons_of_mem _ hr))
      (fun r hr a ha => hmemory r (List.mem_cons_of_mem _ hr) a ((hframe r hr).memory ha))
      (fun r hr a ha => hfresh r (List.mem_cons_of_mem _ hr) a ((hframe r hr).holds.mp ha))
    have hone := hstep.holds_iff hfiles hsafe (hmemory root List.mem_cons_self)
      (hfresh root List.mem_cons_self) (hcanonical root List.mem_cons_self) hpath (a := a)
    rw [List.exists_mem_cons_iff, ← or_assoc, ← hone]
    exact hend

/-! ## Two scans -/

/-- Whether a scan has an archive out of the files that another scan of some roots left. That scan
found no fault in it, by the same filter and while its file had the same stamp. -/
def Sight.carriesOver (v w : Sight openArchive) (roots : List ScanRoot) (root : ScanRoot) : Bool :=
  root.isArchive && (roots.any fun r => r.isArchive && r.path = root.path) &&
    (v.yield root).diagnostics.isEmpty && v.rules.filter = w.rules.filter &&
    v.tree.stamp? root.path = w.tree.stamp? root.path

theorem Sight.carriesOver_iff {w : Sight openArchive} {roots : List ScanRoot} :
    v.carriesOver w roots root = true ↔
      root.isArchive = true ∧ (∃ r ∈ roots, r.isArchive = true ∧ r.path = root.path) ∧
        (v.yield root).diagnostics = [] ∧ v.rules.filter = w.rules.filter ∧
        v.tree.stamp? root.path = w.tree.stamp? root.path := by
  simp [carriesOver, and_assoc]

/-- An archive that gives no fault is there. -/
theorem Sight.exists_keeps (harchive : root.isArchive = true)
    (hclean : (v.yield root).diagnostics = []) : ∃ a, v.Keeps root a := by
  cases hfind : v.tree.find? root.path with
  | none =>
    have hread : v.tree.read? root.path = none := by simp [FileTree.read?, hfind]
    rw [Sight.yield_archive harchive, hread] at hclean
    cases hclean
  | some found =>
    obtain ⟨stamp, hstamp⟩ : ∃ stamp, v.tree.stamp? root.path = some stamp := by
      obtain ⟨place, node⟩ := found
      rw [FileTree.stamp?, hfind]
      cases node <;> exact ⟨_, rfl⟩
    exact ⟨_, (Sight.keeps_iff harchive hclean hstamp).mpr rfl⟩

theorem Sight.Keeps.of_path {r : ScanRoot} {a : CachedArchive} (h : v.Keeps r a)
    (hroot : root.isArchive = true) (hpath : r.path = root.path) : v.Keeps root a := by
  have hyield : v.yield r = v.yield root := Sight.yield_congr h.archive hroot hpath rfl rfl
  exact ⟨hroot, hyield ▸ h.clean, hpath ▸ h.stamp, h.fingerprint, hyield ▸ h.toYield⟩

section

variable {w : Sight openArchive} {s : σ} {roots : List ScanRoot}
  (hkept : ∀ a, files.Holds s root.path a ↔ ∃ r ∈ roots, r.path = root.path ∧ v.Keeps r a)

include hkept

theorem told?_after {a : CachedArchive} : files.told? s w root = some a ↔
    v.carriesOver w roots root = true ∧ v.Keeps root a := by
  rw [told?_eq_some, hkept, Sight.carriesOver_iff]
  constructor
  · rintro ⟨harchive, ⟨r, hr, hpath, hkeeps⟩, hstamp, hprint⟩
    have hroot := hkeeps.of_path harchive hpath
    have hfilter : v.rules.filter = w.rules.filter :=
      NameFilter.fingerprint_injective (hroot.fingerprint.symm.trans hprint)
    exact ⟨⟨harchive, ⟨r, hr, hkeeps.archive, hpath⟩, hroot.clean, hfilter,
      hroot.stamp.trans hstamp.symm⟩, hroot⟩
  · rintro ⟨⟨harchive, ⟨r, hr, hother, hpath⟩, _, hfilter, hstamp⟩, hroot⟩
    exact ⟨harchive, ⟨r, hr, hpath, hroot.of_path hother hpath.symm⟩, hstamp.symm.trans hroot.stamp,
      hroot.fingerprint.trans (congrArg NameFilter.fingerprint hfilter)⟩

theorem answer_after : w.answer root (files.told? s w root) =
    (if v.carriesOver w roots root then v.yield root else w.yield root,
      v.carriesOver w roots root) := by
  cases hcarries : v.carriesOver w roots root with
  | true =>
    obtain ⟨harchive, _, hclean, _⟩ := Sight.carriesOver_iff.mp hcarries
    obtain ⟨a, hroot⟩ := Sight.exists_keeps harchive hclean
    rw [(told?_after hkept).mpr ⟨hcarries, hroot⟩, Sight.answer, hroot.toYield, if_pos rfl]
  | false =>
    have hnone : files.told? s w root = none := by
      rw [Option.eq_none_iff_forall_not_mem]
      intro a ha
      rw [((told?_after hkept).mp ha).1] at hcarries
      cases hcarries
    rw [hnone, Sight.answer, if_neg Bool.false_ne_true]

end

end

namespace Scanner

open ArchiveCache (Fits Takes)

variable {f : String} {t : FileTree} {s : Scanner} {chains : List LoaderChain}

/-- A scan with an empty cache leaves exactly what it keeps of its roots. -/
theorem holds_after_scan (htakes : Takes f t)
    (hempty : ∀ path a, ¬ (ArchiveCache.files (some f)).Holds t path a)
    (hcache : s.cache = some ⟨[], some f⟩) (hcomplete : s.completion = .complete) {path : String}
    (hpath : IsCanonical path) (a : CachedArchive) :
    (ArchiveCache.files (some f)).Holds (s.scanWith openArchive t chains).2.1 path a ↔
      ∃ root ∈ s.roots t chains, root.path = path ∧ (s.sight openArchive t).Keeps root a := by
  have hsafe : Takes f ((t, []) : FileTree × CacheMemory).1 := htakes
  have hroots := pairwise_key_roots s chains htakes.working
  have hcanonical : ∀ root ∈ s.roots t chains, IsCanonical root.path :=
    fun root => isCanonical_of_mem_roots htakes.working
  have hafter := cachedYields_holds_iff (v := s.sight openArchive t) (ArchiveCache.reliable_files f)
    hsafe hroots hcanonical (fun _ _ _ => List.not_mem_nil) (fun root _ => hempty root.path) hpath
    (a := a)
  rw [scan_with_cache hcache hcomplete]
  exact hafter.trans (or_iff_right (hempty path a))

/-- What a scan by other settings has of the archives that a scan before it kept in a folder. It
has each archive in which that scan found no fault, if both scan by the same filter and the stamp
of its file is the same, and all that it tells of this archive is what that scan found, whatever
options it read classes by and however deep it looked. Of all other roots it tells what is in
them. -/
theorem a_second_scan_has_what_the_first_one_kept {t' : FileTree} {s' : Scanner}
    (htakes : Takes f t) (hempty : ∀ path a, ¬ (ArchiveCache.files (some f)).Holds t path a)
    (hcache : s.cache = some ⟨[], some f⟩) (hcomplete : s.completion = .complete)
    (hcache' : s'.cache = some ⟨[], some f⟩) (hcomplete' : s'.completion = .complete)
    (hfits : Fits (some f) t') (chains chains' : List LoaderChain)
    (hfiles : ∀ path, (ArchiveCache.files (some f)).read? t' path =
      (ArchiveCache.files (some f)).read? (s.scanWith openArchive t chains).2.1 path) :
    let v := s.sight openArchive t
    let w := s'.sight openArchive t'
    let carried := v.carriesOver w (s.roots t chains)
    (s'.scanWith openArchive t' chains').1 = s'.resultOf t' chains'
      ((s'.roots t' chains').map fun root => if carried root then v.yield root else w.yield root)
      ((s'.roots t' chains').filter carried).length := by
  intro v w carried
  have hsafe : Fits (some f) ((t', []) : FileTree × CacheMemory).1 := hfits
  have hroots := pairwise_key_roots s' chains' hfits.working
  have hyields := cachedYields_answer (v := w) (ArchiveCache.separate_files (some f)) hsafe hroots
    fun _ _ _ => List.not_mem_nil
  have hanswers : ∀ root ∈ s'.roots t' chains',
      w.answer root ((ArchiveCache.files (some f)).told? t' w root) =
        (if carried root then v.yield root else w.yield root, carried root) := by
    intro root hroot
    refine answer_after fun a => ?_
    rw [CacheFiles.Holds, hfiles]
    exact holds_after_scan htakes hempty hcache hcomplete
      (isCanonical_of_mem_roots hfits.working hroot) a
  rw [List.map_congr_left hanswers] at hyields
  rw [scan_with_cache hcache' hcomplete']
  dsimp only
  rw [hyields, List.map_map, List.filter_map, List.length_map]
  rfl

/-- An archive without items, behind the mark that archives start with. -/
def emptyArchive : Bytes := [0x50, 0x4b, 3, 4] ++ Zip.stored []

/-- An archive with a class and with an archive. -/
def boxedArchive : Bytes :=
  Zip.stored [(Utf8.encode "Lid.class".toList, Descriptor.encode lid),
    (Utf8.encode "b.jar".toList, emptyArchive)]

/-- A tree with this archive and a folder for a cache. -/
def boxShelf : FileTree := { nodes := [(["box.jar"], .file boxedArchive 1), (["cache"], .folder)] }

/-- A scanner that takes in archives down to some level and has its cache in that folder. -/
def boxScanner (nesting : Nat) : Scanner where
  settings := { scan := { nestedArchiveDepth := nesting }, classPath := { overrides := ["/box.jar"] } }
  cache := some ⟨[], some "/cache"⟩

/-- The tree that a scan leaves which looks one level deep. -/
def scannedShelf : FileTree := ((boxScanner 1).scanWith Zip.items? boxShelf []).2.1

/-- A scan that does not look into the inner archive has the class out of the folder. -/
theorem a_shallow_scan_follows_a_deep_one :
    Takes "/cache" boxShelf ∧
      (∀ path a, ¬ (ArchiveCache.files (some "/cache")).Holds boxShelf path a) ∧
      (∀ nesting, (boxScanner nesting).cache = some ⟨[], some "/cache"⟩ ∧
        (boxScanner nesting).completion = .complete) ∧
      Fits (some "/cache") scannedShelf ∧
      ((boxScanner 0).scanWith Zip.items? scannedShelf []).1 = (boxScanner 0).resultOf scannedShelf []
        (((boxScanner 0).roots scannedShelf []).map
          (((boxScanner 1).sight Zip.items? boxShelf).yield)) 1 ∧
      ((boxScanner 0).scanWith Zip.items? scannedShelf []).1.graph.nodes.map ClassNode.name =
        ["Lid"] := by
  have hfits : Fits (some "/cache") boxShelf :=
    ArchiveCache.fits_of_no_link (by simp [boxShelf]) (by simp [boxShelf])
  have hnames : ∀ entry ∈ boxShelf.nodes, ∀ name ∈ entry.1.getLast?, name.toList.head? ≠ some 'a' := by
    simp [boxShelf]
  have hplace : boxShelf.place? "/cache" = some ["cache"] := by decide +kernel
  have htakes : Takes "/cache" boxShelf :=
    ArchiveCache.takes_of_folder hfits (by decide) (by decide) hplace (by decide) hnames
  have hempty := ArchiveCache.not_holds hfits hnames
  have hscanner : ∀ nesting, (boxScanner nesting).cache = some ⟨[], some "/cache"⟩ ∧
      (boxScanner nesting).completion = .complete := fun _ => ⟨rfl, rfl⟩
  have hafter : Fits (some "/cache") scannedShelf :=
    fits_scan hfits (hscanner 1).1 (hscanner 1).2 []
  have hsecond := a_second_scan_has_what_the_first_one_kept htakes hempty (hscanner 1).1 (hscanner 1).2
    (hscanner 0).1 (hscanner 0).2 hafter [] [] fun _ => rfl
  obtain ⟨hone, hcarried⟩ : ((boxScanner 0).roots scannedShelf []).length = 1 ∧
      ∀ root ∈ (boxScanner 0).roots scannedShelf [],
        ((boxScanner 1).sight Zip.items? boxShelf).carriesOver
          ((boxScanner 0).sight Zip.items? scannedShelf) ((boxScanner 1).roots boxShelf []) root := by
    decide +kernel
  dsimp only at hsecond
  rw [List.filter_eq_self.mpr hcarried, hone,
    List.map_congr_left fun root hroot => if_pos (hcarried root hroot)] at hsecond
  have hlid : ((boxScanner 0).scanWith Zip.items? scannedShelf []).1.graph.nodes.map ClassNode.name =
      ["Lid"] := by
    rw [hsecond]
    decide +kernel
  exact ⟨htakes, hempty, hscanner, hafter, hsecond, hlid⟩

/-- The archive comes out of the folder, and the fault is not told that the scan has without its
cache. -/
theorem a_shallow_scan_tells_no_fault_after_a_deep_one :
    ¬ ((boxScanner 0).scanWith Zip.items? scannedShelf []).1.diagnostics.Perm
      ((boxScanner 0).withoutCache.scanWith Zip.items? scannedShelf []).1.diagnostics := by
  intro hperm
  have hlength := hperm.length_eq
  revert hlength
  decide +kernel

end Scanner

end ClassAtlas
