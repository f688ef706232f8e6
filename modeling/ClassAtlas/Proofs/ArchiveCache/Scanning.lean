-- A complete scan as a run over its roots. The roots of a class path have canonical paths, and
-- no two have the same one, so a scan looks up each archive once.
import ClassAtlas.Descriptor.Encode
import ClassAtlas.Proofs.ArchiveCache.RootStep
import ClassAtlas.Proofs.ClassPath.Order

namespace ClassAtlas

open ArchiveCache (Fits)
open ClassAtlas.Path (IsProper IsCanonical)

/-! ## Scans -/

namespace Scanner

variable {openArchive : OpenArchive} {s : Scanner} {t : FileTree} {chains : List LoaderChain}
  {cache : ArchiveCache}

/-- The scanner with its cache off. -/
def withoutCache (s : Scanner) : Scanner := { s with cache := none }

/-- What a scan looks at. -/
def sight (openArchive : OpenArchive) (s : Scanner) (t : FileTree) : Sight openArchive :=
  ⟨t, s.settings.scan.rules⟩

def roots (s : Scanner) (t : FileTree) (chains : List LoaderChain) : List ScanRoot :=
  ClassPath.roots t.lookup s.settings.scan.rules.filter
    (ClassPath.entries s.settings.classPath.overrides chains)

/-- The result of a complete scan whose roots gave this. -/
def resultOf (s : Scanner) (t : FileTree) (chains : List LoaderChain) (yields : List RootYield)
    (cachedRoots : Nat) : ScanResult :=
  .ofYields (s.roots t chains)
    (ClassPath.missing t.lookup (ClassPath.entries s.settings.classPath.overrides chains)) yields
    cachedRoots .complete

theorem isCanonical_of_mem_roots (hworking : ∀ name ∈ t.workingFolder, IsProper name)
    {root : ScanRoot} (h : root ∈ s.roots t chains) : IsCanonical root.path := by
  obtain ⟨path, hpath⟩ := ClassPath.canonical?_of_mem_roots h
  exact FileTree.isCanonical_of_canonical? hworking hpath

/-- A cache tells all roots of a scan apart. -/
theorem pairwise_key_roots (s : Scanner) (chains : List LoaderChain)
    (hworking : ∀ name ∈ t.workingFolder, IsProper name) :
    (s.roots t chains).Pairwise fun a b => CacheMemory.key a.path ≠ CacheMemory.key b.path := by
  refine List.Pairwise.imp_of_mem (fun {a b} ha hb hpath hkey => ?_) (ClassPath.pairwise_roots _ _ _)
  exact hpath (CacheMemory.key_injective (isCanonical_of_mem_roots hworking ha)
    (isCanonical_of_mem_roots hworking hb) hkey)

theorem scan_without_cache (hcomplete : s.completion = .complete) :
    s.withoutCache.scanWith openArchive t chains =
      (s.resultOf t chains ((s.roots t chains).map (s.sight openArchive t).yield) 0, t,
        s.withoutCache) := by
  have hsame : s.withoutCache.completion = .complete := hcomplete
  unfold scanWith
  simp only [hsame]
  rfl

theorem scan_with_cache (hcache : s.cache = some cache) (hcomplete : s.completion = .complete) :
    s.scanWith openArchive t chains =
      let sight := s.sight openArchive t
      let run := cachedYields (ArchiveCache.files cache.folder) sight.rules sight.view
        (t, cache.memory) (s.roots t chains)
      (s.resultOf t chains (run.1.map (·.1)) (run.1.filter (·.2)).length, run.2.1,
        { s with cache := some { cache with memory := run.2.2 } }) := by
  unfold scanWith
  simp only [hcomplete, hcache]
  rfl

/-- A scan changes nothing of its scanner but the cache. -/
theorem exists_cache_scanWith (s : Scanner) (t : FileTree) (chains : List LoaderChain) :
    ∃ cache, (s.scanWith openArchive t chains).2.2 = { s with cache } := by
  unfold scanWith
  dsimp only
  split <;> exact ⟨_, rfl⟩

theorem fits_scan (hfits : Fits cache.folder t) (hcache : s.cache = some cache)
    (hcomplete : s.completion = .complete) (chains : List LoaderChain) :
    Fits cache.folder (s.scanWith openArchive t chains).2.1 := by
  have hsafe : Fits cache.folder (t, cache.memory).1 := hfits
  rw [scan_with_cache hcache hcomplete]
  exact cachedYields_safe (ArchiveCache.separate_files cache.folder) hsafe

end Scanner

/-! ## Archives whose items are stored as they are -/

namespace Zip

/-- The fields of a header, each with its width, the lowest byte first. -/
def fields (values : List (Nat × Nat)) : Bytes :=
  values.flatMap fun (width, value) => (BigEndian.bytes width value).reverse

/-- The fields that both headers of an item have in common. -/
def storedFields (name content : Bytes) : List (Nat × Nat) :=
  [(2, 0), (2, 0), (4, 0), (4, (Checksum.ofBytes content).toNat), (4, content.length),
    (4, content.length), (2, name.length), (2, 0)]

/-- An item with its header. -/
def storedItem (name content : Bytes) : Bytes :=
  fields ([(4, 0x04034B50), (2, 20)] ++ storedFields name content) ++ name ++ content

/-- The directory of some items, the first of which starts at a place. -/
def storedDirectory (start : Nat) : List (Bytes × Bytes) → Bytes
  | [] => []
  | (name, content) :: rest =>
    fields ([(4, 0x02014B50), (2, 20), (2, 20)] ++ storedFields name content ++
      [(2, 0), (2, 0), (2, 0), (4, 0), (4, start)]) ++ name ++
      storedDirectory (start + (storedItem name content).length) rest

/-- An archive with some items. -/
def stored (items : List (Bytes × Bytes)) : Bytes :=
  let front := items.flatMap fun (name, content) => storedItem name content
  let directory := storedDirectory 0 items
  front ++ directory ++ fields [(4, 0x06054B50), (2, 0), (2, 0), (2, items.length), (2, items.length),
    (4, directory.length), (4, front.length), (2, 0)]

end Zip

/-- A class that says no more than its name. -/
def lid : ClassRecord where
  name := "Lid"
  access := ⟨0x0021⟩
  minorVersion := 0
  majorVersion := 52
  superclass := none
  interfaces := []
  fields := []
  methods := []
  annotations := []
  signature := none
  parsedSignature := none
  outerClass := none
  innerClasses := []
  referencedClasses := []

/-- An archive with that class. -/
def lidArchive : Bytes := Zip.stored [(Utf8.encode "Lid.class".toList, Descriptor.encode lid)]

end ClassAtlas
