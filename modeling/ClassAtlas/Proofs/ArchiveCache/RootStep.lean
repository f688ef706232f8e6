-- What can happen to one root of a scan with a cache. An archive is looked up first; one that
-- is not found is read, and it is kept if nothing in it failed.
import ClassAtlas.Proofs.ArchiveCache.Stored
import ClassAtlas.Proofs.ArchiveCache.Files
import ClassAtlas.Scan

namespace ClassAtlas

/-! ## One root without a cache -/

namespace RootYield

theorem classes_join (yields : List RootYield) : (join yields).classes = yields.flatMap classes := by
  induction yields with
  | nil => rfl
  | cons y rest ih =>
    rw [List.flatMap_cons, ← ih]
    rfl

end RootYield

namespace ScanRules

/-- All classes that a root gives can be stored. -/
theorem consistent_yieldOf {rules : ScanRules} {items : List (Except ScanFault RootEntry)} :
    ∀ c ∈ (rules.yieldOf items).classes, c.record.Consistent := by
  intro c hc
  rw [yieldOf, RootYield.classes_join, List.flatMap_map] at hc
  obtain ⟨item, _, hitem⟩ := List.mem_flatMap.mp hc
  cases item with
  | error fault => cases hitem
  | ok e =>
    unfold yieldOfItem yieldOfEntry at hitem
    cases hdecode : Descriptor.decode rules.decoding e.bytes with
    | error fault => simp [hdecode] at hitem
    | ok d =>
      simp only [hdecode] at hitem
      split at hitem
      · rw [List.mem_singleton.mp hitem]
        exact Descriptor.consistent_of_decode hdecode
      · cases hitem

end ScanRules

theorem CachedArchive.toYield_of_clean {y : RootYield} (h : y.diagnostics = []) (stamp : Stamp)
    (fingerprint : Nat) : CachedArchive.toYield ⟨y.classes, y.entries, stamp, fingerprint⟩ = y := by
  unfold toYield
  rw [← h]

/-- What a scan looked at, and the rules that it went by. It opens archives by `openArchive`. -/
structure Sight (openArchive : OpenArchive) where
  tree : FileTree
  rules : ScanRules

variable {openArchive : OpenArchive}

namespace Sight

def view (v : Sight openArchive) : RootView := v.tree.rootView openArchive v.rules

/-- What a root gives without a cache. -/
def yield (v : Sight openArchive) (root : ScanRoot) : RootYield := v.rules.yieldOf (v.view.entries root)

theorem yield_archive {v : Sight openArchive} {root : ScanRoot} (h : root.isArchive = true) :
    v.yield root = v.rules.yieldOf (walkArchive openArchive v.rules.filter v.rules.nesting root.path
      (v.tree.read? root.path)) := by
  have hkind : root.kind = .archive := of_decide_eq_true h
  unfold yield view FileTree.rootView
  dsimp only
  rw [hkind]
  rfl

/-- What an archive gives is in its bytes. -/
theorem yield_congr {v w : Sight openArchive} {root root' : ScanRoot} (hroot : root.isArchive = true)
    (hroot' : root'.isArchive = true) (hpath : root.path = root'.path) (hrules : v.rules = w.rules)
    (hread : v.tree.read? root.path = w.tree.read? root.path) : v.yield root = w.yield root' := by
  rw [yield_archive hroot, yield_archive hroot', ← hpath, hrules, hread]

end Sight

/-! ## Memory and files -/

theorem CachedArchive.isCurrent_iff {a : CachedArchive} {stamp : Stamp} {fingerprint : Nat} :
    a.isCurrent stamp fingerprint = true ↔ a.stamp = stamp ∧ a.fingerprint = fingerprint := by
  simp [isCurrent]

/-- A file of a cache that says something of an archive. -/
def CacheFiles.Holds {σ : Type} (files : CacheFiles σ) (s : σ) (path : String) (a : CachedArchive) :
    Prop :=
  (files.read? s path).bind CachedArchive.ofBytes? = some a

/-- A cache holds nothing in a tree where no name starts like that of a cache file. -/
theorem ArchiveCache.not_holds {folder : Option String} {t : FileTree} (h : Fits folder t)
    (hnames : ∀ entry ∈ t.nodes, ∀ name ∈ entry.1.getLast?, name.toList.head? ≠ some 'a')
    (path : String) (a : CachedArchive) : ¬ (files folder).Holds t path a := by
  unfold CacheFiles.Holds
  rw [read?_eq_none h hnames]
  nofun

namespace CacheMemory

theorem mem_of_get? {memory : CacheMemory} {path : String} {a : CachedArchive}
    (h : memory.get? path = some a) : (key path, a) ∈ memory := by
  obtain ⟨front, back, rfl, _⟩ := List.lookup_eq_some_iff.mp h
  simp

theorem mem_insert {memory : CacheMemory} {path : String} {a : CachedArchive}
    {entry : List String × CachedArchive} (h : entry ∈ memory.insert path a) :
    entry = (key path, a) ∨ entry ∈ memory := by
  unfold insert at h
  split at h
  · obtain ⟨old, hold, rfl⟩ := List.mem_map.mp h
    split
    · rename_i hkey
      rw [hkey]
      exact Or.inl rfl
    · exact Or.inr hold
  · rw [List.mem_append, List.mem_singleton] at h
    exact h.symm

theorem mem_makeRoom {memory : CacheMemory} {entry : List String × CachedArchive}
    (h : entry ∈ memory.makeRoom) : entry ∈ memory := by
  unfold makeRoom at h
  split at h
  · exact List.mem_of_mem_drop h
  · exact h

variable {σ : Type} {files : CacheFiles σ} {s : σ} {memory : CacheMemory} {path : String}
  {stamp : Option Stamp} {fingerprint : Nat}

/-- What a look-up does not find is in no file that is current. -/
theorem find_eq_none {memory' : CacheMemory}
    (h : memory.find files s path stamp fingerprint = (none, memory')) :
    memory' = memory ∧ ∀ a, files.Holds s path a → stamp = some a.stamp →
      a.fingerprint ≠ fingerprint := by
  unfold find at h
  split at h
  · exact ⟨(Prod.mk.inj h).2.symm, nofun⟩
  · split at h
    · cases h
    · split at h
      · cases h
      · rename_i hfile
        refine ⟨(Prod.mk.inj h).2.symm, fun a ha hstamp hprint => ?_⟩
        rw [CacheFiles.Holds] at ha
        rw [ha] at hfile
        have hcurrent := CachedArchive.isCurrent_iff.mpr ⟨(Option.some.inj hstamp).symm, hprint⟩
        simp [hcurrent] at hfile

/-- What a look-up finds is current, and the memory or a file holds it. -/
theorem find_eq_some {memory' : CacheMemory} {a : CachedArchive}
    (h : memory.find files s path stamp fingerprint = (some a, memory')) :
    stamp = some a.stamp ∧ a.fingerprint = fingerprint ∧
      ((key path, a) ∈ memory ∨ files.Holds s path a) ∧
      (memory' = memory ∨ memory' = memory.insert path a) := by
  unfold find at h
  cases stamp with
  | none => cases h
  | some stamp =>
    simp only at h
    cases hmemory : (memory.get? path).filter fun a => a.isCurrent stamp fingerprint with
    | some b =>
      rw [hmemory] at h
      obtain ⟨hb, rfl⟩ := Prod.mk.inj h
      obtain rfl := Option.some.inj hb
      obtain ⟨hget, hvalid⟩ := Option.filter_eq_some_iff.mp hmemory
      obtain ⟨rfl, hprint⟩ := CachedArchive.isCurrent_iff.mp hvalid
      exact ⟨rfl, hprint, Or.inl (mem_of_get? hget), Or.inl rfl⟩
    | none =>
      rw [hmemory] at h
      cases hfile : ((files.read? s path).bind CachedArchive.ofBytes?).filter
          fun a => a.isCurrent stamp fingerprint with
      | none =>
        rw [hfile] at h
        cases h
      | some b =>
        rw [hfile] at h
        obtain ⟨hb, rfl⟩ := Prod.mk.inj h
        obtain rfl := Option.some.inj hb
        obtain ⟨hholds, hvalid⟩ := Option.filter_eq_some_iff.mp hfile
        obtain ⟨rfl, hprint⟩ := CachedArchive.isCurrent_iff.mp hvalid
        refine ⟨rfl, hprint, Or.inr hholds, ?_⟩
        split
        · exact Or.inr rfl
        · exact Or.inl rfl

theorem store?_eq_some {entries : Nat} {classes : List CachedClass} {state : σ × CacheMemory}
    (h : memory.store? files s path stamp fingerprint entries classes = some state) :
    ∃ kept, stamp = some kept ∧
      files.write? s path (CachedArchive.mk classes entries kept fingerprint).toBytes = some state.1 ∧
      state.2 = memory.makeRoom.insert path ⟨classes, entries, kept, fingerprint⟩ := by
  unfold store? at h
  cases stamp with
  | none => cases h
  | some kept =>
    refine ⟨kept, rfl, ?_⟩
    cases hwrite : files.write? s path (CachedArchive.mk classes entries kept fingerprint).toBytes with
    | none => simp [hwrite] at h
    | some s' =>
      simp only [hwrite, Option.bind_eq_bind, Option.bind_some, Option.pure_def,
        Option.some.injEq] at h
      rw [← h]
      exact ⟨rfl, rfl⟩

theorem exists_store? {kept : Stamp} {entries : Nat} {classes : List CachedClass}
    (hwrite : ∀ bytes, ∃ s', files.write? s path bytes = some s') (hstamp : stamp = some kept) :
    ∃ state, memory.store? files s path stamp fingerprint entries classes = some state := by
  obtain ⟨s', hs'⟩ := hwrite (CachedArchive.mk classes entries kept fingerprint).toBytes
  refine ⟨(s', memory.makeRoom.insert path ⟨classes, entries, kept, fingerprint⟩), ?_⟩
  simp [store?, hstamp, hs']

end CacheMemory

/-! ## Steps -/

/-- What can happen to a root: it is a folder, it comes out of the cache, or it is read and
then kept if it has no fault. -/
inductive RootStep {σ : Type} (files : CacheFiles σ) (v : Sight openArchive) (state : σ × CacheMemory)
    (root : ScanRoot) : (RootYield × Bool) × (σ × CacheMemory) → Prop
  | folder (hfolder : root.isArchive = false) : RootStep files v state root ((v.yield root, false), state)
  | kept {a memory} (harchive : root.isArchive = true)
      (hfind : state.2.find files state.1 root.path (v.view.stamp? root.path)
        v.rules.filter.fingerprint = (some a, memory)) :
      RootStep files v state root ((a.toYield, true), (state.1, memory))
  | faulty (harchive : root.isArchive = true) (hfault : (v.yield root).diagnostics ≠ [])
      (hfind : state.2.find files state.1 root.path (v.view.stamp? root.path)
        v.rules.filter.fingerprint = (none, state.2)) :
      RootStep files v state root ((v.yield root, false), state)
  | unstored (harchive : root.isArchive = true) (hclean : (v.yield root).diagnostics = [])
      (hfind : state.2.find files state.1 root.path (v.view.stamp? root.path)
        v.rules.filter.fingerprint = (none, state.2))
      (hstore : state.2.store? files state.1 root.path (v.view.stamp? root.path)
        v.rules.filter.fingerprint (v.yield root).entries (v.yield root).classes = none) :
      RootStep files v state root ((v.yield root, false), state)
  | stored {state'} (harchive : root.isArchive = true) (hclean : (v.yield root).diagnostics = [])
      (hfind : state.2.find files state.1 root.path (v.view.stamp? root.path)
        v.rules.filter.fingerprint = (none, state.2))
      (hstore : state.2.store? files state.1 root.path (v.view.stamp? root.path)
        v.rules.filter.fingerprint (v.yield root).entries (v.yield root).classes = some state') :
      RootStep files v state root ((v.yield root, false), state')

theorem cachedYield_step {σ : Type} (files : CacheFiles σ) (v : Sight openArchive)
    (state : σ × CacheMemory) (root : ScanRoot) : RootStep files v state root (cachedYield files v.rules v.view state root) := by
  obtain ⟨s, memory⟩ := state
  have hown : v.rules.yieldOf (v.view.entries root) = v.yield root := rfl
  unfold cachedYield
  cases harchive : root.isArchive with
  | false => exact .folder harchive
  | true =>
    obtain ⟨found, memory', hfind⟩ : ∃ found memory', memory.find files s root.path
        (v.view.stamp? root.path) v.rules.filter.fingerprint = (found, memory') := ⟨_, _, rfl⟩
    simp only [hfind, hown, Bool.not_true, Bool.false_eq_true, if_false]
    cases found with
    | some a => exact .kept harchive hfind
    | none =>
      obtain ⟨rfl, _⟩ := CacheMemory.find_eq_none hfind
      dsimp only
      by_cases hclean : (v.yield root).diagnostics = []
      · rw [hclean, List.isEmpty_nil, if_pos rfl]
        cases hstore : CacheMemory.store? files s memory' root.path (v.view.stamp? root.path)
            v.rules.filter.fingerprint (v.yield root).entries (v.yield root).classes with
        | none => exact .unstored harchive hclean hfind hstore
        | some state' => exact .stored harchive hclean hfind hstore
      · rw [if_neg (by simpa using hclean)]
        exact .faulty harchive hclean hfind

section

variable {σ : Type} {files : CacheFiles σ} {Safe : σ → Prop} (hfiles : files.Separate Safe)
  {v : Sight openArchive} {state : σ × CacheMemory}

include hfiles

theorem RootStep.safe {root : ScanRoot} {after : (RootYield × Bool) × (σ × CacheMemory)}
    (h : RootStep files v state root after) (hsafe : Safe state.1) : Safe after.2.1 := by
  cases h with
  | folder => exact hsafe
  | kept => exact hsafe
  | faulty => exact hsafe
  | unstored => exact hsafe
  | stored _ _ _ hstore =>
    obtain ⟨_, -, hwrite, -⟩ := CacheMemory.store?_eq_some hstore
    exact hfiles.safe_write? hsafe hwrite

theorem cachedYields_safe {roots : List ScanRoot} (hsafe : Safe state.1) :
    Safe (cachedYields files v.rules v.view state roots).2.1 := by
  induction roots generalizing state with
  | nil => exact hsafe
  | cons root rest ih => exact ih ((cachedYield_step files v state root).safe hfiles hsafe)

end

end ClassAtlas
