-- A cache as a store of what was kept last. Whatever happens, the files hold what was stored last
-- for each archive since the cache was cleared, and the memory holds nothing else. So a look-up
-- gives that, if the file has the stamp that it had, and it changes no answer to any later one.
import ClassAtlas.Proofs.ArchiveCache.RootStep
import ClassAtlas.Proofs.FileTree.Folders
import Mathlib.Algebra.Ring.Int.Defs

namespace ClassAtlas

open CacheMemory (key)

/-! ## What was stored last -/

/-- What can happen to a cache and to the tree that it is in. -/
inductive CacheEvent
  | stored (path : String) (a : CachedArchive)
  | lookedUp (path : String) (fingerprint : Nat)
  | cleared
  /-- The cache is opened again in the same folder. -/
  | reopened
  /-- Something changes that is no cache file, such as an archive. -/
  | changed

namespace CacheEvent

def isLookUp : CacheEvent → Bool
  | lookedUp _ _ => true
  | _ => false

/-- What was stored last for an archive since the cache was cleared, the latest event first. -/
def lastStore : List CacheEvent → List String → Option CachedArchive
  | [], _ => none
  | stored path a :: past, k => if k = key path then some a else lastStore past k
  | cleared :: _, _ => none
  | _ :: past, k => lastStore past k

theorem lastStore_filter (past : List CacheEvent) (k : List String) :
    lastStore (past.filter fun e => !e.isLookUp) k = lastStore past k := by
  induction past with
  | nil => rfl
  | cons e past ih =>
    cases e with
    | stored path a =>
      show (if k = key path then some a else lastStore (past.filter _) k) = _
      rw [ih]
      rfl
    | cleared => rfl
    | lookedUp _ _ => exact ih
    | reopened => exact ih
    | changed => exact ih

end CacheEvent

/-! ## Memory -/

namespace CacheMemory

/-- An archive that is put into memory takes the place of what was there under its key. -/
theorem eq_of_mem_insert {memory : CacheMemory} {path : String} {a b : CachedArchive}
    (h : (key path, b) ∈ memory.insert path a) : b = a := by
  unfold insert at h
  split at h
  · obtain ⟨⟨k, c⟩, _, heq⟩ := List.mem_map.mp h
    split at heq
    · exact (Prod.mk.inj heq).2.symm
    · rename_i hkey
      exact absurd (Prod.mk.inj heq).1 hkey
  · rename_i hnew
    rcases List.mem_append.mp h with hmem | hmem
    · exact absurd (List.any_eq_true.mpr ⟨_, hmem, decide_eq_true rfl⟩) hnew
    · exact (Prod.mk.inj (List.mem_singleton.mp hmem)).2

end CacheMemory

namespace ArchiveCache

open CacheEvent (lastStore)

/-! ## Runs -/

/-- A cache with a folder in which files can be written, and what happened to it, the latest event
first. It is opened without any cache file. What is stored can be read back. A cache that was
cleared lies where the folder was removed. -/
inductive Run (f : String) : List CacheEvent → FileTree → ArchiveCache → Prop
  | opened {t₀ t c} (hopen : openIn t₀ (some f) = (t, c)) (hfolder : c.folder = some f)
      (htakes : Takes f t) (hempty : ∀ path, (files (some f)).read? t path = none) : Run f [] t c
  | stored {past t c t' c' path} {a : CachedArchive} (h : Run f past t c)
      (hstore : c.store? t path a.fingerprint a.entries a.classes = some (t', c'))
      (hstamp : t.stamp? path = some a.stamp) (hback : CachedArchive.ofBytes? a.toBytes = some a) :
      Run f (.stored path a :: past) t' c'
  | lookedUp {past t c} (h : Run f past t c) (path : String) (fingerprint : Nat) :
      Run f (.lookedUp path fingerprint :: past) t (c.find t path fingerprint).2
  | cleared {past t c t' c' top} (h : Run f past t c) (hthere : t.has f = true)
      (hclear : c.clear t = (t', c', true)) (htop : t.ownPlace? f = some top) (htakes : Takes f t')
      (hsame : ∀ path, t'.place? (Path.join f (fileName path)) = some (top ++ [fileName path])) :
      Run f (.cleared :: past) t' c'
  | reopened {past t c t' c'} (h : Run f past t c) (hopen : openIn t (some f) = (t', c'))
      (hfolder : c'.folder = some f) (htakes : Takes f t') : Run f (.reopened :: past) t' c'
  | changed {past t c t'} (h : Run f past t c) (htakes : Takes f t')
      (hfiles : ∀ path, (files (some f)).read? t' path = (files (some f)).read? t path) :
      Run f (.changed :: past) t' c

/-- What holds of a cache after some events. -/
structure Remembers (f : String) (past : List CacheEvent) (t : FileTree) (c : ArchiveCache) : Prop where
  folder_eq : c.folder = some f
  takes : Takes f t
  inFiles : ∀ path, ((files (some f)).read? t path).bind CachedArchive.ofBytes? = lastStore past (key path)
  inMemory : ∀ entry ∈ c.memory, lastStore past entry.1 = some entry.2

section

variable {f : String} {past : List CacheEvent} {t t' : FileTree} {c c' : ArchiveCache} {path : String}

theorem openIn_eq (hopen : openIn t (some f) = (t', c')) (hfolder : c'.folder = some f) :
    c' = ⟨[], some f⟩ ∧ t.makeFolder? f = some t' := by
  simp only [openIn, Option.getD_some] at hopen
  split at hopen
  · obtain ⟨rfl, rfl⟩ := Prod.mk.inj hopen
    exact ⟨rfl, ‹_›⟩
  · obtain ⟨rfl, rfl⟩ := Prod.mk.inj hopen
    cases hfolder

theorem store?_eq {a : CachedArchive} (hfolder : c.folder = some f)
    (hstamp : t.stamp? path = some a.stamp)
    (hstore : c.store? t path a.fingerprint a.entries a.classes = some (t', c')) :
    (files (some f)).write? t path a.toBytes = some t' ∧
      c' = { c with memory := c.memory.makeRoom.insert path a } := by
  unfold store? at hstore
  obtain ⟨⟨t₁, memory⟩, hstored, heq⟩ := Option.map_eq_some_iff.mp hstore
  obtain ⟨kept, hkept, hwrite, hmemory⟩ := CacheMemory.store?_eq_some hstored
  obtain rfl : a.stamp = kept := Option.some.inj (hstamp.symm.trans hkept)
  obtain ⟨rfl, rfl⟩ := Prod.mk.inj heq
  rw [hfolder] at hwrite
  simp only at hmemory
  exact ⟨hwrite, by rw [hmemory]⟩

theorem store?_of_write? {fingerprint entries : Nat} {classes : List CachedClass} {stamp : Stamp}
    (hfolder : c.folder = some f) (hstamp : t.stamp? path = some stamp)
    (hwrite : (files (some f)).write? t path
      (CachedArchive.mk classes entries stamp fingerprint).toBytes = some t') :
    ∃ c', c.store? t path fingerprint entries classes = some (t', c') := by
  simp only [store?, CacheMemory.store?, hfolder, hstamp, Option.bind_eq_bind, Option.bind_some, hwrite]
  exact ⟨_, rfl⟩

theorem clear_eq (hfolder : c.folder = some f) (hthere : t.has f = true)
    (hclear : c.clear t = (t', c', true)) :
    c' = ⟨[], some f⟩ ∧ ∃ t₁, t.remove? f = some t₁ ∧ t₁.makeFolder? f = some t' := by
  simp only [clear, hfolder, Option.filter_some, hthere, if_true] at hclear
  split at hclear
  · cases hclear
  split at hclear
  · cases hclear
  · split at hclear
    · obtain ⟨rfl, hcache⟩ := Prod.mk.inj hclear
      exact ⟨(Prod.mk.inj hcache).1.symm, _, ‹_›, ‹_›⟩
    · cases hclear

/-- The memory makes no difference to clearing. -/
theorem clear_congr {c₁ : ArchiveCache} (h : c₁.folder = c.folder) : c₁.clear t = c.clear t := by
  unfold clear
  rw [h]

theorem Remembers.holds (h : Remembers f past t c) {path : String} {a : CachedArchive}
    (hlast : lastStore past (key path) = some a) : (files c.folder).Holds t path a := by
  rw [h.folder_eq]
  exact (h.inFiles path).trans hlast

/-- What was found was stored last, and what was stored last is found while it is current. -/
theorem Remembers.find_iff (h : Remembers f past t c) {path : String} {fingerprint : Nat}
    {a : CachedArchive} : (c.find t path fingerprint).1 = some a ↔
      lastStore past (key path) = some a ∧ t.stamp? path = some a.stamp ∧ a.fingerprint = fingerprint := by
  have hfound : ∀ {b}, (c.find t path fingerprint).1 = some b → lastStore past (key path) = some b ∧
      t.stamp? path = some b.stamp ∧ b.fingerprint = fingerprint := by
    intro b hb
    obtain ⟨hstamp, hprint, hheld, _⟩ := CacheMemory.find_eq_some (Prod.ext hb rfl)
    refine ⟨?_, hstamp, hprint⟩
    rcases hheld with hmemory | hfile
    · exact h.inMemory _ hmemory
    · rw [h.folder_eq] at hfile
      exact (h.inFiles path).symm.trans hfile
  refine ⟨hfound, fun ⟨hlast, hstamp, hprint⟩ => ?_⟩
  cases hfind : (c.find t path fingerprint).1 with
  | some b => rw [← (hfound hfind).1, hlast]
  | none =>
    obtain ⟨_, hmissed⟩ := CacheMemory.find_eq_none (Prod.ext hfind rfl)
    exact absurd hprint (hmissed a (h.holds hlast) hstamp)

/-! ## What each event leaves -/

/-- A look-up may put what it finds into memory. -/
theorem memory_find (c : ArchiveCache) (t : FileTree) (path : String) (fingerprint : Nat) :
    (c.find t path fingerprint).2.memory = c.memory ∨ ∃ a, (c.find t path fingerprint).1 = some a ∧
      (c.find t path fingerprint).2.memory = c.memory.insert path a := by
  unfold find
  cases hfind : c.memory.find (files c.folder) t path (t.stamp? path) fingerprint with
  | mk found memory =>
    cases found with
    | none => exact Or.inl (CacheMemory.find_eq_none hfind).1
    | some a =>
      obtain ⟨_, _, _, hmemory | hmemory⟩ := CacheMemory.find_eq_some hfind
      · exact Or.inl hmemory
      · exact Or.inr ⟨a, rfl, hmemory⟩

theorem Remembers.lookedUp (h : Remembers f past t c) (path : String) (fingerprint : Nat) :
    Remembers f (.lookedUp path fingerprint :: past) t (c.find t path fingerprint).2 where
  folder_eq := h.folder_eq
  takes := h.takes
  inFiles := h.inFiles
  inMemory := by
    rcases memory_find c t path fingerprint with hsame | ⟨a, hfound, hmore⟩
    · rw [hsame]
      exact h.inMemory
    · rw [hmore]
      intro entry hentry
      rcases CacheMemory.mem_insert hentry with rfl | hold
      · exact (h.find_iff.mp hfound).1
      · exact h.inMemory entry hold

theorem Remembers.stored (h : Remembers f past t c) {a : CachedArchive}
    (hstore : c.store? t path a.fingerprint a.entries a.classes = some (t', c'))
    (hstamp : t.stamp? path = some a.stamp) (hback : CachedArchive.ofBytes? a.toBytes = some a) :
    Remembers f (.stored path a :: past) t' c' := by
  obtain ⟨hwrite, rfl⟩ := store?_eq h.folder_eq hstamp hstore
  refine ⟨h.folder_eq, takes_write?_files hwrite h.takes, fun other => ?_, fun entry hentry => ?_⟩
  · rw [read?_write?_files hwrite h.takes.toFits, lastStore]
    split
    · exact hback
    · exact h.inFiles other
  · rw [lastStore]
    split
    · rename_i hkey
      obtain ⟨k, b⟩ := entry
      obtain rfl : k = key path := hkey
      exact congrArg some (CacheMemory.eq_of_mem_insert hentry).symm
    · rename_i hkey
      rcases CacheMemory.mem_insert hentry with rfl | hold
      · exact absurd rfl hkey
      · exact h.inMemory entry (CacheMemory.mem_makeRoom hold)

/-- A file that lies where the folder was removed is gone, for only folders were made since. -/
theorem Remembers.cleared (h : Remembers f past t c) (hthere : t.has f = true)
    (hclear : c.clear t = (t', c', true)) {top : Place} (htop : t.ownPlace? f = some top)
    (htakes : Takes f t')
    (hsame : ∀ path, t'.place? (Path.join f (fileName path)) = some (top ++ [fileName path])) :
    Remembers f (.cleared :: past) t' c' := by
  obtain ⟨rfl, t₁, hremoved, hmade⟩ := clear_eq h.folder_eq hthere hclear
  refine ⟨rfl, htakes, fun path => ?_, fun entry hentry => by cases hentry⟩
  have hnone : (files (some f)).read? t' path = none := by
    rw [read?_files]
    unfold FileTree.read? FileTree.find?
    rw [hsame path, Option.bind_eq_bind, Option.bind_some]
    cases hat : t'.at? (top ++ [fileName path]) with
    | none => rfl
    | some node =>
      cases node with
      | folder => rfl
      | link target => rfl
      | file bytes modified =>
        have hfile := (FileTree.moreFolders_makeFolder? hmade).at?_back hat nofun
        have hwithin := FileTree.at?_remove? hremoved htop (by simp) hfile
        rw [FileTree.within_append] at hwithin
        cases hwithin
  rw [hnone]
  rfl

theorem Remembers.reopened (h : Remembers f past t c) (hopen : openIn t (some f) = (t', c'))
    (hfolder : c'.folder = some f) (htakes : Takes f t') : Remembers f (.reopened :: past) t' c' := by
  obtain ⟨rfl, hmade⟩ := openIn_eq hopen hfolder
  refine ⟨rfl, htakes, fun path => ?_, fun entry hentry => by cases hentry⟩
  obtain ⟨place, hplace, _⟩ := h.takes.place path
  rw [read?_files, (FileTree.moreFolders_makeFolder? hmade).read? hplace, ← read?_files]
  exact h.inFiles path

theorem Remembers.changed (h : Remembers f past t c) (htakes : Takes f t')
    (hfiles : ∀ path, (files (some f)).read? t' path = (files (some f)).read? t path) :
    Remembers f (.changed :: past) t' c :=
  ⟨h.folder_eq, htakes, fun path => by rw [hfiles]; exact h.inFiles path, h.inMemory⟩

theorem Run.remembers (h : Run f past t c) : Remembers f past t c := by
  induction h with
  | opened hopen hfolder htakes hempty =>
    obtain ⟨rfl, _⟩ := openIn_eq hopen hfolder
    refine ⟨rfl, htakes, fun path => ?_, fun entry hentry => by cases hentry⟩
    rw [hempty]
    rfl
  | stored _ hstore hstamp hback ih => exact ih.stored hstore hstamp hback
  | lookedUp _ path fingerprint ih => exact ih.lookedUp path fingerprint
  | cleared _ hthere hclear htop htakes hsame ih => exact ih.cleared hthere hclear htop htakes hsame
  | reopened _ hopen hfolder htakes ih => exact ih.reopened hopen hfolder htakes
  | changed _ htakes hfiles ih => exact ih.changed htakes hfiles

/-- Without the look-ups the same happens to the tree. -/
theorem Run.without_lookUps (h : Run f past t c) :
    ∃ c', Run f (past.filter fun e => !e.isLookUp) t c' := by
  induction h with
  | opened hopen hfolder htakes hempty => exact ⟨_, .opened hopen hfolder htakes hempty⟩
  | stored h hstore hstamp hback ih =>
    obtain ⟨c₁, h₁⟩ := ih
    obtain ⟨hwrite, _⟩ := store?_eq h.remembers.folder_eq hstamp hstore
    obtain ⟨c₂, hstore₂⟩ := store?_of_write? h₁.remembers.folder_eq hstamp hwrite
    exact ⟨c₂, h₁.stored hstore₂ hstamp hback⟩
  | lookedUp _ _ _ ih => exact ih
  | cleared h hthere hclear htop htakes hsame ih =>
    obtain ⟨c₁, h₁⟩ := ih
    have hfolder := h₁.remembers.folder_eq.trans h.remembers.folder_eq.symm
    exact ⟨_, h₁.cleared hthere ((clear_congr hfolder).trans hclear) htop htakes hsame⟩
  | reopened _ hopen hfolder htakes ih =>
    obtain ⟨c₁, h₁⟩ := ih
    exact ⟨_, h₁.reopened hopen hfolder htakes⟩
  | changed _ htakes hfiles ih =>
    obtain ⟨c₁, h₁⟩ := ih
    exact ⟨c₁, h₁.changed htakes hfiles⟩

end

/-! ## The last store -/

/-- Times from 1970 on are told apart by a stamp as far as eight bytes hold them. -/
theorem stamp?_eq_iff {t t' : FileTree} {path : String} {place place' : Place} {bytes bytes' : Bytes}
    {modified modified' : Int} (h : t.find? path = some (place, .file bytes modified))
    (h' : t'.find? path = some (place', .file bytes' modified')) (hpositive : 0 ≤ modified)
    (hpositive' : 0 ≤ modified') : t.stamp? path = t'.stamp? path ↔
      modified % 2 ^ 64 = modified' % 2 ^ 64 ∧ bytes.length = bytes'.length := by
  have hpower : Nat.pow 2 64 = 18446744073709551616 := rfl
  simp only [FileTree.stamp?, h, h', Option.some.injEq, Stamp.mk.injEq, hpower]
  refine and_congr_left fun _ => ?_
  omega

/-- A folder for cache files, and a box of one byte that was changed at some time. -/
def boxed (modified : Int) : FileTree where
  nodes := [(["cache"], .folder), (["box.jar"], .file [7] modified)]

/-- The same with a cache file for the box. -/
def cached (modified : Int) (bytes : Bytes) : FileTree where
  nodes := (boxed modified).nodes ++ [(["cache", fileName "/box.jar"], .file bytes 1)]
  clock := 2

/-- The same after the folder was removed and made again. -/
def emptied (modified : Int) : FileTree where
  nodes := [(["box.jar"], .file [7] modified), (["cache"], .folder)]
  clock := 3

/-- A box without classes that was changed in 1970. -/
def box : CachedArchive := ⟨[], 1, ⟨0, 1⟩, 5⟩

theorem takes_boxed (modified : Int) : Takes "/cache" (boxed modified) :=
  takes_of_folder (fits_of_no_link nofun (by simp [boxed])) (by decide) (by decide)
    (rfl : (boxed modified).place? "/cache" = some ["cache"]) rfl (by simp [boxed])

theorem fits_emptied (modified : Int) : Fits (some "/cache") (emptied modified) :=
  fits_of_no_link nofun (by simp [emptied])

theorem takes_emptied (modified : Int) : Takes "/cache" (emptied modified) :=
  takes_of_folder (fits_emptied modified) (by decide) (by decide)
    (rfl : (emptied modified).place? "/cache" = some ["cache"]) rfl (by simp [emptied])

theorem read?_boxed (modified : Int) (path : String) :
    (files (some "/cache")).read? (boxed modified) path = none :=
  read?_eq_none (takes_boxed modified).toFits (by simp [boxed]) path

theorem write?_boxed (modified : Int) (bytes : Bytes) :
    (files (some "/cache")).write? (boxed modified) "/box.jar" bytes = some (cached modified bytes) := rfl

theorem run_box : Run "/cache" [.stored "/box.jar" box] (cached 0 box.toBytes)
    ⟨[(key "/box.jar", box)], some "/cache"⟩ := by
  have hopened : Run "/cache" [] (boxed 0) ⟨[], some "/cache"⟩ :=
    .opened (rfl : openIn (boxed 0) (some "/cache") = _) rfl (takes_boxed 0) (read?_boxed 0)
  exact hopened.stored rfl rfl (CachedArchive.ofBytes?_toBytes nofun)

end ArchiveCache

end ClassAtlas
