-- Scans that share a cache. The cache stays warm whatever happens to the archives in between,
-- and so a scan finds in it only what another scan found by the same filter in the same file.
-- What else the two go by, the depth of nesting for one, is not compared.
import ClassAtlas.Proofs.ArchiveCache.Scanning
import ClassAtlas.Proofs.ArchiveCache.Warm
import Mathlib.Data.List.Forall2

namespace ClassAtlas

open ArchiveCache (Fits)
open ClassAtlas.Path (IsCanonical)

variable {openArchive : OpenArchive}

/-! ## Scans -/

/-- A cache that holds only what some scans found. -/
def ArchiveCache.WarmIn (cache : ArchiveCache) (seen : List (Sight openArchive)) (t : FileTree) :
    Prop :=
  Warm (files cache.folder) seen (t, cache.memory)

/-- The same result with another number of roots that came out of a cache. -/
def ScanResult.withCachedRoots (r : ScanResult) (n : Nat) : ScanResult := { r with cachedRoots := n }

namespace Scanner

variable {s : Scanner} {t : FileTree} {chains : List LoaderChain} {cache : ArchiveCache}
  {seen : List (Sight openArchive)}

/-- A scan with a warm cache: each root gives what it may, the tree goes on to fit, and the cache
stays warm. -/
theorem scan_warm (hcache : s.cache = some cache) (hcomplete : s.completion = .complete)
    (hfits : Fits cache.folder t) (hwarm : cache.WarmIn seen t) :
    let v := s.sight openArchive t
    let scanned := s.scanWith openArchive t chains
    ∃ yields n memory, scanned.1 = s.resultOf t chains yields n ∧
      List.Forall₂ (Told (v :: seen) v) (s.roots t chains) yields ∧
      scanned.2.2.cache = some { cache with memory } ∧ Fits cache.folder scanned.2.1 ∧
      ArchiveCache.WarmIn { cache with memory } (v :: seen) scanned.2.1 := by
  intro v scanned
  have hmore : Warm (ArchiveCache.files cache.folder) (v :: seen) (t, cache.memory) :=
    Warm.mono hwarm (List.subset_cons_self _ _)
  have hsafe : Fits cache.folder (t, cache.memory).1 := hfits
  have hroots : ∀ root ∈ s.roots t chains, IsCanonical root.path :=
    fun root => isCanonical_of_mem_roots hfits.working
  obtain ⟨htold, hafter⟩ := cachedYields_warm (ArchiveCache.separate_files cache.folder)
    List.mem_cons_self hsafe hmore hroots
  have hfits' : Fits cache.folder scanned.2.1 := fits_scan hfits hcache hcomplete chains
  unfold scanned at hfits' ⊢
  rw [scan_with_cache hcache hcomplete] at hfits' ⊢
  exact ⟨_, _, _, rfl, htold, rfl, hfits', hafter⟩

end Scanner

/-! ## Histories of a cache -/

namespace ArchiveCache

/-- A cache that complete scans share, with the tree that it is left in and all that they
looked at. Between two scans the tree may become any other one in which no cache file came in
from elsewhere, and the memory may get lost. -/
inductive History : List (Sight openArchive) → FileTree → ArchiveCache → Prop
  | opened {t cache} (hfits : Fits cache.folder t) (hmemory : cache.memory = [])
      (hfiles : ∀ path a, ¬ (files cache.folder).Holds t path a) : History [] t cache
  | scanned {seen t cache cache' chains} {s : Scanner} (h : History seen t cache)
      (hcache : s.cache = some cache) (hcomplete : s.completion = .complete)
      (hafter : (s.scanWith openArchive t chains).2.2.cache = some cache') :
      History (s.sight openArchive t :: seen) (s.scanWith openArchive t chains).2.1 cache'
  | changed {seen t t' cache} (h : History seen t cache) (hfits : Fits cache.folder t')
      (hfiles : ∀ path a, (files cache.folder).Holds t' path a → (files cache.folder).Holds t path a) :
      History seen t' cache
  | reopened {seen t cache} (h : History seen t cache) : History seen t ⟨[], cache.folder⟩

theorem History.warm {seen : List (Sight openArchive)} {t : FileTree} {cache : ArchiveCache}
    (h : History seen t cache) : Fits cache.folder t ∧ cache.WarmIn seen t := by
  induction h with
  | opened hfits hmemory hfiles =>
    refine ⟨hfits, fun _ ha => ?_, fun _ ha => absurd ha (hfiles _ _)⟩
    rw [hmemory] at ha
    cases ha
  | scanned h hcache hcomplete hafter ih =>
    obtain ⟨_, _, memory, _, _, hmemory, hstill⟩ := Scanner.scan_warm hcache hcomplete ih.1 ih.2
    rw [hmemory] at hafter
    rw [← Option.some.inj hafter]
    exact hstill
  | changed h hfits hfiles ih =>
    exact ⟨hfits, ih.2.memory, fun hpath ha => ih.2.files hpath (hfiles _ _ ha)⟩
  | reopened h ih =>
    refine ⟨ih.1, fun _ ha => ?_, ih.2.files⟩
    cases ha

/-- The history of a new cache after its first scan. -/
theorem history_of_scan {folder : Option String} {t : FileTree} {s : Scanner}
    (chains : List LoaderChain) (hfits : Fits folder t)
    (hnames : ∀ entry ∈ t.nodes, ∀ name ∈ entry.1.getLast?, name.toList.head? ≠ some 'a')
    (hcache : s.cache = some ⟨[], folder⟩) (hcomplete : s.completion = .complete) :
    ∃ memory, (s.scanWith openArchive t chains).2.2.cache = some ⟨memory, folder⟩ ∧
      History [s.sight openArchive t] (s.scanWith openArchive t chains).2.1 ⟨memory, folder⟩ := by
  have hopened : History ([] : List (Sight openArchive)) t ⟨[], folder⟩ :=
    .opened hfits rfl (not_holds hfits hnames)
  obtain ⟨_, _, memory, _, _, hafter, _⟩ := Scanner.scan_warm hcache hcomplete hfits hopened.warm.2
  exact ⟨memory, hafter, hopened.scanned hcache hcomplete hafter⟩

end ArchiveCache

/-! ## What a root may give after others -/

/-- What a scan found itself it need not find in its cache. -/
theorem Told.of_cons {seen : List (Sight openArchive)} {v : Sight openArchive} {root : ScanRoot}
    {y : RootYield} (h : Told (v :: seen) v root y) : Told seen v root y := by
  rcases h with hown | ⟨harchive, w, hw, hrest⟩
  · exact Or.inl hown
  · rcases List.mem_cons.mp hw with rfl | hw
    · exact Or.inl hrest.2.2.1
    · exact Or.inr ⟨harchive, w, hw, hrest⟩

/-- A scan by the same rules found the same if the file was the same. -/
theorem Told.own {seen : List (Sight openArchive)} {v : Sight openArchive} {root : ScanRoot}
    {y : RootYield} (h : Told seen v root y)
    (hstamps : ∀ w ∈ seen, w.tree.stamp? root.path = v.tree.stamp? root.path →
      w.tree.read? root.path = v.tree.read? root.path)
    (hrules : ∀ w ∈ seen, w.rules.decoding = v.rules.decoding ∧ w.rules.nesting = v.rules.nesting) :
    y = v.yield root := by
  rcases h with hown | ⟨harchive, w, hw, hfilter, hstamp, hyield, _⟩
  · exact hown
  · have hsame : w.rules = v.rules := by
      obtain ⟨hdecoding, hnesting⟩ := hrules w hw
      calc w.rules = ⟨w.rules.filter, w.rules.decoding, w.rules.nesting⟩ := rfl
        _ = ⟨v.rules.filter, v.rules.decoding, v.rules.nesting⟩ := by
          rw [hfilter, hdecoding, hnesting]
    rw [hyield]
    exact Sight.yield_congr harchive harchive rfl hsame (hstamps w hw hstamp)

theorem eq_map_of_forall₂ {α β : Type} {R : α → β → Prop} {f : α → β} {as : List α} {bs : List β}
    (h : List.Forall₂ R as bs) (heq : ∀ a ∈ as, ∀ b, R a b → b = f a) : bs = as.map f := by
  induction h with
  | nil => rfl
  | cons hfirst _ ih =>
    rw [List.map_cons, ← heq _ List.mem_cons_self _ hfirst,
      ← ih fun a ha => heq a (List.mem_cons_of_mem _ ha)]

/-! ## What a scan tells after others -/

namespace Scanner

open ArchiveCache (History history_of_scan)

variable {seen : List (Sight openArchive)} {t : FileTree} {cache : ArchiveCache} {s : Scanner}

/-- A complete scan with a cache that scans by any other settings used before: each root gives
what is in it, or, for an archive, what one of those scans found in it without a fault, by the
same filter and while the file had the same stamp. Whether that scan read classes in the same way
and looked equally deep does not count. -/
theorem scan_told (h : History seen t cache)
    (hcache : s.cache = some cache) (hcomplete : s.completion = .complete)
    (chains : List LoaderChain) :
    ∃ yields n, (s.scanWith openArchive t chains).1 = s.resultOf t chains yields n ∧
      List.Forall₂ (Told seen (s.sight openArchive t)) (s.roots t chains) yields := by
  obtain ⟨yields, n, _, hresult, htold, _⟩ := scan_warm hcache hcomplete h.warm.1 h.warm.2
  exact ⟨yields, n, hresult, htold.imp fun _ _ hy => hy.of_cons⟩

/-- A tree with two archives. The second one was changed at some time. -/
def shelf (modified : Int) (bytes : Bytes) : FileTree where
  nodes := [(["first.jar"], .file lidArchive 1), (["box.jar"], .file bytes modified)]

/-- A scanner of both archives. -/
def shelfScanner : Scanner where
  settings := { classPath := { overrides := ["/first.jar", "/box.jar"] } }
  cache := some {}

/-- The scanner after it saw both archives with the same bytes. -/
def rescanner : Scanner := (shelfScanner.scanWith Zip.items? (shelf 1 lidArchive) []).2.2

end Scanner

end ClassAtlas
