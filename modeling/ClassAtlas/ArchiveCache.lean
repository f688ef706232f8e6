-- A cache of scanned archives. It keeps the classes of an archive together with the size and
-- the time of its file and the fingerprint of the filter, and gives them back only while
-- all three are the same. What is not in memory is looked up in a folder of files.
import ClassAtlas.ArchiveCache.Stored
import ClassAtlas.FileTree

namespace ClassAtlas

/-! ## What is kept -/

/-- What tells whether a file changed. -/
structure Stamp where
  /-- The time of the last change in nanoseconds since 1970, and zero for all times before. -/
  modified : Nat
  size : Nat
deriving DecidableEq

structure CachedClass where
  ordinal : Nat
  entryName : String
  location : String
  record : ClassRecord

structure CachedArchive where
  classes : List CachedClass
  /-- How many entries were read. -/
  entries : Nat
  stamp : Stamp
  fingerprint : Nat

/-- Whether the classes are those of a file with this stamp under a filter with this
fingerprint. -/
def CachedArchive.isCurrent (a : CachedArchive) (stamp : Stamp) (fingerprint : Nat) : Bool :=
  a.stamp = stamp && a.fingerprint = fingerprint

namespace Storable

instance : Storable Stamp :=
  via (fun s => (s.modified, s.size)) fun (modified, size) => ⟨modified, size⟩

instance : Storable CachedClass :=
  via (fun c => (c.ordinal, c.entryName, c.location, c.record))
    fun (ordinal, entryName, location, record) => ⟨ordinal, entryName, location, record⟩

instance : Storable CachedArchive :=
  via (fun a => (a.classes, a.entries, a.stamp, a.fingerprint))
    fun (classes, entries, stamp, fingerprint) => ⟨classes, entries, stamp, fingerprint⟩

end Storable

/-! ## Where it is kept -/

/-- The files of a cache: those of all archives, told apart by their paths. -/
structure CacheFiles (σ : Type) where
  read? : σ → String → Option Bytes
  write? : σ → String → Bytes → Option σ

/-- What files of a cache start with. -/
def cacheMark : Bytes := Utf8.encode "ClassAtlas 1\n".toList

/-- The content of a cache file. -/
def CachedArchive.toBytes (a : CachedArchive) : Bytes := cacheMark ++ Storable.codec.encode a

/-- What a cache file holds, if nothing happened to it. -/
def CachedArchive.ofBytes? (bytes : Bytes) : Option CachedArchive :=
  if bytes.take cacheMark.length = cacheMark then
    Codec.read? Storable.codec (bytes.drop cacheMark.length)
  else none

/-- The archives that are kept in memory, by the names on their paths. -/
abbrev CacheMemory := List (List String × CachedArchive)

namespace CacheMemory

/-- How many archives are kept in memory. -/
def limit : Nat := 256

/-- The names on a path. Names that change nothing do not count. -/
def key (path : String) : List String :=
  match Path.names path with
  | [""] => []
  | "" :: rest => "/" :: rest.filter fun name => !Path.isIdle name
  | "." :: rest => "." :: rest.filter fun name => !Path.isIdle name
  | names => names.filter fun name => !Path.isIdle name

def get? (memory : CacheMemory) (path : String) : Option CachedArchive := memory.lookup (key path)

def insert (memory : CacheMemory) (path : String) (a : CachedArchive) : CacheMemory :=
  if memory.any fun entry => entry.1 = key path then
    memory.map fun entry => if entry.1 = key path then (entry.1, a) else entry
  else memory ++ [(key path, a)]

variable {σ : Type}

/-- What is kept of an archive whose file has this stamp, and the memory after the look-up.
What was found in a file goes into memory while there is room. -/
def find (files : CacheFiles σ) (s : σ) (memory : CacheMemory) (path : String)
    (stamp : Option Stamp) (fingerprint : Nat) : Option CachedArchive × CacheMemory :=
  match stamp with
  | none => (none, memory)
  | some stamp =>
    match (memory.get? path).filter fun a => a.isCurrent stamp fingerprint with
    | some a => (some a, memory)
    | none =>
      match ((files.read? s path).bind CachedArchive.ofBytes?).filter
          fun a => a.isCurrent stamp fingerprint with
      | some a => (some a, if memory.length < limit then memory.insert path a else memory)
      | none => (none, memory)

/-- The memory with room for one more archive. -/
def makeRoom (memory : CacheMemory) : CacheMemory :=
  if limit ≤ memory.length then memory.drop 1 else memory

/-- Keeps the classes of an archive whose file has this stamp. Fails if there is no file or
if the cache file cannot be written. -/
def store? (files : CacheFiles σ) (s : σ) (memory : CacheMemory) (path : String)
    (stamp : Option Stamp) (fingerprint entries : Nat) (classes : List CachedClass) :
    Option (σ × CacheMemory) := do
  let a : CachedArchive := ⟨classes, entries, ← stamp, fingerprint⟩
  let s ← files.write? s path a.toBytes
  return (s, memory.makeRoom.insert path a)

end CacheMemory

/-! ## In a file tree -/

/-- The stamp of whatever a path leads to. A folder has no time and the size of one block. -/
def FileTree.stamp? (t : FileTree) (path : String) : Option Stamp :=
  match t.find? path with
  | some (_, .file bytes modified) => some ⟨modified.toNat % Nat.pow 2 64, bytes.length⟩
  | some _ => some ⟨0, 4096⟩
  | none => none

structure ArchiveCache where
  memory : CacheMemory := []
  /-- The folder of the cache files, if there is one. -/
  folder : Option String := none

namespace ArchiveCache

/-- A character of a file name. Slashes and escapes are escaped, so that two paths never
share a name. -/
def escape (c : Char) : List Char :=
  if c = '/' then ['_', 's'] else if c = '_' then ['_', 'u'] else [c]

/-- The name of the cache file of an archive. -/
def fileName (path : String) : String :=
  let names := (CacheMemory.key path).map fun name => String.ofList (name.toList.flatMap escape)
  "archive" ++ Text.joined "_n" ("" :: names)

/-- The cache files in a folder of a file tree. Without a folder nothing is written. -/
def files (folder : Option String) : CacheFiles FileTree where
  read? t path := folder.bind fun f => t.read? (Path.join f (fileName path))
  write? t path bytes :=
    match folder with
    | some f => t.write? (Path.join f (fileName path)) bytes
    | none => some t

/-- Where cache files lie unless the settings say otherwise. -/
def defaultFolder : String := "/tmp/classweave_cache"

/-- A cache with an empty memory. If the folder cannot be made it keeps to memory. -/
def openIn (t : FileTree) (folder : Option String) : FileTree × ArchiveCache :=
  let folder := folder.getD defaultFolder
  match t.makeFolder? folder with
  | some t => (t, ⟨[], some folder⟩)
  | none => (t, ⟨[], none⟩)

/-- What is kept of an archive, and the cache after the look-up. -/
def find (c : ArchiveCache) (t : FileTree) (path : String) (fingerprint : Nat) :
    Option CachedArchive × ArchiveCache :=
  let (found, memory) := c.memory.find (files c.folder) t path (t.stamp? path) fingerprint
  (found, { c with memory })

/-- Keeps the classes of an archive. -/
def store? (c : ArchiveCache) (t : FileTree) (path : String) (fingerprint entries : Nat)
    (classes : List CachedClass) : Option (FileTree × ArchiveCache) :=
  (c.memory.store? (files c.folder) t path (t.stamp? path) fingerprint entries classes).map
    fun (t, memory) => (t, { c with memory })

/-- How many files the folder of the cache has. -/
def fileCount (c : ArchiveCache) (t : FileTree) : Nat :=
  match c.folder.bind t.names? with
  | some names => names.length
  | none => 0

/-- Forgets everything. The last part tells whether the files could be removed too. -/
def clear (c : ArchiveCache) (t : FileTree) : FileTree × ArchiveCache × Bool :=
  let emptied : ArchiveCache := { c with memory := [] }
  match c.folder.filter t.has with
  | none => (t, emptied, true)
  | some folder =>
    if !t.isFolder folder then (t, emptied, false)
    else
      match t.remove? folder with
      | none => (t, emptied, false)
      | some t =>
        match t.makeFolder? folder with
        | some t => (t, emptied, true)
        | none => (t, emptied, false)

end ArchiveCache

end ClassAtlas
