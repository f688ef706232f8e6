-- What a warm cache answers. It holds only what some scan found in an archive without a fault,
-- so a root gives what is in it, or what a scan by the same filter found there when the file
-- had the same stamp.
import ClassAtlas.Proofs.ArchiveCache.RootStep
import ClassAtlas.Proofs.Filter.Fingerprint

namespace ClassAtlas

open ClassAtlas.Path (IsCanonical)

variable {openArchive : OpenArchive}

/-! ## What a cache holds -/

/-- One of the scans found this in the archive at a path, and no fault. -/
def Found (seen : List (Sight openArchive)) (path : String) (a : CachedArchive) : Prop :=
  ∃ v ∈ seen, v.tree.stamp? path = some a.stamp ∧ v.rules.filter.fingerprint = a.fingerprint ∧
    ∀ root : ScanRoot, root.isArchive = true → root.path = path → v.yield root = a.toYield

/-- All that a cache holds was found by one of the scans. -/
structure Warm {σ : Type} (files : CacheFiles σ) (seen : List (Sight openArchive))
    (state : σ × CacheMemory) : Prop where
  memory : ∀ {path a}, IsCanonical path → (CacheMemory.key path, a) ∈ state.2 → Found seen path a
  files : ∀ {path a}, IsCanonical path → files.Holds state.1 path a → Found seen path a

theorem Found.mono {seen seen' : List (Sight openArchive)} {path : String} {a : CachedArchive}
    (h : Found seen path a) (hle : seen ⊆ seen') : Found seen' path a := by
  obtain ⟨v, hv, hrest⟩ := h
  exact ⟨v, hle hv, hrest⟩

theorem Warm.mono {σ : Type} {files : CacheFiles σ} {seen seen' : List (Sight openArchive)}
    {state : σ × CacheMemory} (h : Warm files seen state) (hle : seen ⊆ seen') :
    Warm files seen' state :=
  ⟨fun hpath ha => (h.memory hpath ha).mono hle, fun hpath ha => (h.files hpath ha).mono hle⟩

/-! ## What a root gives -/

/-- What a root may give: what is in it, or, for an archive, what a scan by the same filter
found in it without a fault while its file had the same stamp. -/
def Told (seen : List (Sight openArchive)) (v : Sight openArchive) (root : ScanRoot) (y : RootYield) :
    Prop :=
  y = v.yield root ∨ root.isArchive = true ∧ ∃ w ∈ seen, w.rules.filter = v.rules.filter ∧
    w.tree.stamp? root.path = v.tree.stamp? root.path ∧ y = w.yield root ∧ y.diagnostics = []

section

variable {σ : Type} {files : CacheFiles σ} {Safe : σ → Prop} (hfiles : files.Separate Safe)
  {seen : List (Sight openArchive)} {v : Sight openArchive} (hv : v ∈ seen)

include hfiles

/-- What is kept of an archive is found for it and for no other one. -/
theorem Warm.store? {state state' : σ × CacheMemory} {path : String} {a : CachedArchive}
    (hsafe : Safe state.1) (hwarm : Warm files seen state) (hpath : IsCanonical path)
    (hfound : Found seen path a) (hclasses : ∀ c ∈ a.classes, c.record.Consistent)
    (hwrite : files.write? state.1 path a.toBytes = some state'.1)
    (hmemory : state'.2 = state.2.makeRoom.insert path a) : Warm files seen state' := by
  constructor
  · intro other b hother hb
    rw [hmemory] at hb
    rcases CacheMemory.mem_insert hb with hnew | hold
    · obtain ⟨hkey, rfl⟩ := Prod.mk.inj hnew
      rw [CacheMemory.key_injective hother hpath hkey]
      exact hfound
    · exact hwarm.memory hother (CacheMemory.mem_makeRoom hold)
  · intro other b hother hb
    by_cases hkey : CacheMemory.key other = CacheMemory.key path
    · obtain rfl := CacheMemory.key_injective hother hpath hkey
      obtain ⟨bytes, hread, hback⟩ := Option.bind_eq_some_iff.mp hb
      rw [hfiles.read?_back hsafe hwrite hread, CachedArchive.ofBytes?_toBytes hclasses] at hback
      rw [← Option.some.inj hback]
      exact hfound
    · rw [CacheFiles.Holds, hfiles.read?_other hsafe hwrite hkey] at hb
      exact hwarm.files hother hb

include hv

/-- One root: the cache stays warm, and the root gives what it may. -/
theorem cachedYield_warm {state : σ × CacheMemory} {root : ScanRoot} (hsafe : Safe state.1)
    (hwarm : Warm files seen state) (hroot : IsCanonical root.path) :
    Told seen v root (cachedYield files v.rules v.view state root).1.1 ∧
      Warm files seen (cachedYield files v.rules v.view state root).2 := by
  have hstep := cachedYield_step files v state root
  generalize cachedYield files v.rules v.view state root = after at hstep ⊢
  cases hstep with
  | folder => exact ⟨Or.inl rfl, hwarm⟩
  | faulty => exact ⟨Or.inl rfl, hwarm⟩
  | unstored => exact ⟨Or.inl rfl, hwarm⟩
  | kept harchive hfind =>
    obtain ⟨hstamp, hprint, hholds, hmemory⟩ := CacheMemory.find_eq_some hfind
    have hfound : Found seen root.path _ := hholds.elim (hwarm.memory hroot) (hwarm.files hroot)
    refine ⟨?_, fun {other b} hother hb => ?_, hwarm.files⟩
    · obtain ⟨w, hw, hold, hfilter, hyield⟩ := hfound
      refine Or.inr ⟨harchive, w, hw, ?_, hold.trans hstamp.symm, (hyield root harchive rfl).symm, rfl⟩
      exact NameFilter.fingerprint_injective (hfilter.trans hprint)
    · rcases hmemory with rfl | rfl
      · exact hwarm.memory hother hb
      · rcases CacheMemory.mem_insert hb with hnew | hold
        · obtain ⟨hkey, rfl⟩ := Prod.mk.inj hnew
          rw [CacheMemory.key_injective hother hroot hkey]
          exact hfound
        · exact hwarm.memory hother hold
  | stored harchive hclean hfind hstore =>
    obtain ⟨stamp, hstamp, hwrite, hmemory⟩ := CacheMemory.store?_eq_some hstore
    refine ⟨Or.inl rfl, ?_⟩
    refine hwarm.store? hfiles hsafe hroot ?_ ScanRules.consistent_yieldOf hwrite hmemory
    refine ⟨v, hv, hstamp, rfl, fun other hother hpath => ?_⟩
    rw [Sight.yield_congr hother harchive hpath rfl rfl]
    exact (CachedArchive.toYield_of_clean hclean _ _).symm

/-- All roots, one after the other. -/
theorem cachedYields_warm {state : σ × CacheMemory} {roots : List ScanRoot} (hsafe : Safe state.1)
    (hwarm : Warm files seen state) (hroots : ∀ root ∈ roots, IsCanonical root.path) :
    List.Forall₂ (Told seen v) roots
        ((cachedYields files v.rules v.view state roots).1.map (·.1)) ∧
      Warm files seen (cachedYields files v.rules v.view state roots).2 := by
  induction roots generalizing state with
  | nil => exact ⟨.nil, hwarm⟩
  | cons root rest ih =>
    have hsafe' := (cachedYield_step files v state root).safe hfiles hsafe
    obtain ⟨htold, hwarm'⟩ := cachedYield_warm hfiles hv hsafe hwarm (hroots root List.mem_cons_self)
    obtain ⟨hothers, hend⟩ := ih hsafe' hwarm' fun r hr => hroots r (List.mem_cons_of_mem _ hr)
    exact ⟨.cons htold hothers, hend⟩

end

end ClassAtlas
