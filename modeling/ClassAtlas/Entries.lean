-- The classes of a root, one entry for each that the filter takes in. A folder is walked by
-- name, and an archive in the order of its items, with the entries of an archive inside it
-- in the place of that item. What cannot be read stands among the entries as a fault.
import ClassAtlas.Archive.Zip
import ClassAtlas.ClassPath.Basic
import ClassAtlas.EntryPath
import ClassAtlas.FileTree.Listing
import ClassAtlas.Filter
import ClassAtlas.ScanFault

namespace ClassAtlas

/-! ## Entries -/

/-- The bytes of one class, with the path inside its root and the place for messages. -/
structure FoundEntry where
  name : String
  location : String
  bytes : Bytes
deriving DecidableEq

/-- An entry with its number among the entries of its root. -/
structure RootEntry where
  ordinal : Nat
  name : String
  location : String
  bytes : Bytes
deriving DecidableEq

/-- Numbers entries from some number on. Faults get none. -/
def numberEntries : Nat → List (Except ScanFault FoundEntry) → List (Except ScanFault RootEntry)
  | _, [] => []
  | n, .ok e :: rest => .ok ⟨n, e.name, e.location, e.bytes⟩ :: numberEntries (n + 1) rest
  | n, .error fault :: rest => .error fault :: numberEntries n rest

/-! ## Folders -/

/-- The path of a name below a path inside a root. -/
def below (relative name : String) : String :=
  if relative = "" then name else relative ++ "/" ++ name

/-- The package of a folder, by its path inside the root. -/
def packageOfFolder (relative : String) : String := Text.replaceChar '/' '.' relative

/-- The entry of a file, if it holds a class that the filter takes in. -/
def fileEntries (f : NameFilter) (location relative : String) (bytes : Bytes) :
    List (Except ScanFault FoundEntry) :=
  match EntryPath.className? relative with
  | some name => if f.classAccepted name then [.ok ⟨relative, location, bytes⟩] else []
  | none => []

namespace Listing

mutual

/-- The entries of a folder's item. A folder whose package holds nothing that the filter
takes in is not entered. -/
def entries (f : NameFilter) (location relative : String) :
    Listing → List (Except ScanFault FoundEntry)
  | file name bytes => fileEntries f (Path.join location name) (below relative name) bytes
  | folder name items =>
    if f.packageMayContainAccepted (packageOfFolder (below relative name)) then
      entriesOfItems f (Path.join location name) (below relative name) items
    else []
  | unreadable name => [.error (.unreadable (Path.join location name))]

/-- The entries of some items of a folder. -/
def entriesOfItems (f : NameFilter) (location relative : String) :
    List Listing → List (Except ScanFault FoundEntry)
  | [] => []
  | item :: rest => entries f location relative item ++ entriesOfItems f location relative rest

end

end Listing

/-- The entries of a root that is a folder. A file in its place has none. -/
def folderEntries (t : FileTree) (f : NameFilter) (path : String) :
    List (Except ScanFault FoundEntry) :=
  match t.find? path with
  | none => [.error (.unreadable path)]
  | some _ =>
    if f.packageMayContainAccepted "" then
      Listing.entriesOfItems f path "" ((t.listings? path).getD [])
    else []

/-! ## Archives -/

/-- An item of an archive, in the order of its directory. An item that cannot be opened
still has its place among the others. -/
inductive ArchiveItem
  | unreadable
  | folder
  /-- The content is nothing if it cannot be read. -/
  | file (name : String) (content : Thunk (Option Bytes))

/-- How an archive is opened. -/
abbrev OpenArchive := Bytes → Option (List ArchiveItem)

/-- An archive that a walk is in, with what is left of its items and their positions. -/
structure ArchiveFrame where
  location : String
  /-- How many archives lie around this one. -/
  depth : Nat
  items : List (ArchiveItem × Nat)

/-- An archive of which no item has been looked at. -/
def ArchiveFrame.ofItems (location : String) (depth : Nat) (items : List ArchiveItem) :
    ArchiveFrame := ⟨location, depth, items.zipIdx⟩

/-- What a walk does about an item. -/
inductive WalkStep
  | give (found : Except ScanFault FoundEntry)
  | enter (inner : ArchiveFrame)
  | pass

/-- A walk through an archive: the archives that it is in, the innermost one first, and the
number of the next entry. -/
structure ArchiveWalk where
  frames : List ArchiveFrame
  ordinal : Nat

section Walk

variable (openArchive : OpenArchive) (f : NameFilter) (limit : Nat)

namespace ArchiveFrame

/-- What a walk does about an archive that lies in this one. -/
def stepInto (frame : ArchiveFrame) (inside : String) (bytes : Bytes) : WalkStep :=
  if limit < frame.depth + 1 then .give (.error (.nestedTooDeep inside limit))
  else
    match openArchive bytes with
    | some items => .enter (ofItems inside (frame.depth + 1) items)
    | none => .give (.error (.unreadable inside))

/-- What a walk does about an item of this archive. -/
def step (frame : ArchiveFrame) : ArchiveItem × Nat → WalkStep
  | (.unreadable, position) => .give (.error (.unreadable s!"{frame.location}!/#{position}"))
  | (.folder, _) => .pass
  | (.file path content, _) =>
    let inside := frame.location ++ "!/" ++ path
    let name := EntryPath.withoutPackageRoot path
    match EntryPath.className? name with
    | some className =>
      if !f.classAccepted className then .pass
      else
        match content.get with
        | some bytes => .give (.ok ⟨name, inside, bytes⟩)
        | none => .give (.error (.unreadable inside))
    | none =>
      if !EntryPath.mayBeArchive path || !f.archiveAccepted (EntryPath.fileName path) then .pass
      else
        match content.get with
        | some bytes =>
          if EntryPath.startsArchive bytes then stepInto openArchive limit frame inside bytes
          else .pass
        | none => .give (.error (.unreadable inside))

end ArchiveFrame

namespace ArchiveWalk

/-- One turn of a walk: what it gives, if it gives anything, and the walk that is left. An
archive is left when none of its items is, and a walk that is in no archive has ended. -/
def turn? (w : ArchiveWalk) : Option (Option (Except ScanFault RootEntry) × ArchiveWalk) :=
  match w.frames with
  | [] => none
  | ⟨_, _, []⟩ :: outer => some (none, ⟨outer, w.ordinal⟩)
  | ⟨location, depth, item :: rest⟩ :: outer =>
    let frames := ⟨location, depth, rest⟩ :: outer
    match ArchiveFrame.step openArchive f limit ⟨location, depth, rest⟩ item with
    | .give (.ok e) =>
      some (some (.ok ⟨w.ordinal, e.name, e.location, e.bytes⟩), ⟨frames, w.ordinal + 1⟩)
    | .give (.error fault) => some (some (.error fault), ⟨frames, w.ordinal⟩)
    | .enter inner => some (none, ⟨inner :: frames, w.ordinal⟩)
    | .pass => some (none, ⟨frames, w.ordinal⟩)

/-! A walk ends: an archive is entered only while there are levels left, so all that can be owed
inside an item is fixed by its bytes and the levels. -/

/-- The most turns that an item takes, where an archive with these bytes takes `inner` of them. -/
def turnsOfItem (inner : Bytes → Nat) : ArchiveItem → Nat
  | .file _ content => content.get.elim 0 inner + 1
  | _ => 1

/-- The most turns that some items take, and the one that leaves their archive. -/
def turnsOfItems (inner : Bytes → Nat) (items : List ArchiveItem) : Nat :=
  (items.map (turnsOfItem inner)).foldr (· + ·) 1

/-- The most turns that an archive takes with so many levels left for it and those inside. -/
def turnsOfArchive : Nat → Bytes → Nat
  | 0, _ => 0
  | levels + 1, bytes => (openArchive bytes).elim 0 (turnsOfItems (turnsOfArchive levels))

/-- The most turns that what is left of an archive takes. -/
def turnsOfFrame (frame : ArchiveFrame) : Nat :=
  turnsOfItems (turnsOfArchive openArchive (limit - frame.depth)) (frame.items.map Prod.fst)

/-- The most turns that a walk still takes. -/
def turns (w : ArchiveWalk) : Nat :=
  (w.frames.map (turnsOfFrame openArchive limit)).foldr (· + ·) 0

variable {openArchive f limit}

theorem turnsOfItem_pos (inner : Bytes → Nat) (item : ArchiveItem) : 0 < turnsOfItem inner item := by
  cases item <;> simp [turnsOfItem]

theorem turnsOfFrame_cons (location : String) (depth : Nat) (item : ArchiveItem × Nat)
    (rest : List (ArchiveItem × Nat)) :
    turnsOfFrame openArchive limit ⟨location, depth, item :: rest⟩ =
      turnsOfItem (turnsOfArchive openArchive (limit - depth)) item.1 +
        turnsOfFrame openArchive limit ⟨location, depth, rest⟩ := rfl

theorem turns_cons (frame : ArchiveFrame) (outer : List ArchiveFrame) (n : Nat) :
    turns openArchive limit ⟨frame :: outer, n⟩ =
      turnsOfFrame openArchive limit frame + turns openArchive limit ⟨outer, n⟩ := rfl

/-- An archive is entered only if it can be opened and lies no deeper than the limit. -/
theorem exists_of_enter {frame inner : ArchiveFrame} {item : ArchiveItem × Nat}
    (h : frame.step openArchive f limit item = .enter inner) :
    ∃ path content bytes items, item.1 = .file path content ∧ content.get = some bytes ∧
      frame.depth < limit ∧ openArchive bytes = some items ∧
      inner = .ofItems (frame.location ++ "!/" ++ path) (frame.depth + 1) items := by
  obtain ⟨item, position⟩ := item
  cases item with
  | unreadable => cases h
  | folder => cases h
  | file path content =>
    unfold ArchiveFrame.step at h
    dsimp only at h
    split at h
    · split at h
      · cases h
      · split at h <;> cases h
    split at h
    · cases h
    split at h
    · rename_i bytes hbytes
      split at h
      · unfold ArchiveFrame.stepInto at h
        split at h
        · cases h
        split at h
        · rename_i hdepth items hitems
          cases h
          exact ⟨path, content, bytes, items, rfl, hbytes, by omega, hitems, rfl⟩
        · cases h
      · cases h
    · cases h

/-- An archive that is entered takes fewer turns than the item that it is. -/
theorem turns_of_enter {frame inner : ArchiveFrame} {item : ArchiveItem × Nat}
    (h : frame.step openArchive f limit item = .enter inner) :
    turnsOfFrame openArchive limit inner <
      turnsOfItem (turnsOfArchive openArchive (limit - frame.depth)) item.1 := by
  obtain ⟨path, content, bytes, items, hitem, hbytes, hdepth, hitems, rfl⟩ := exists_of_enter h
  have hlevels : limit - frame.depth = limit - (frame.depth + 1) + 1 := by omega
  have hframe : turnsOfFrame openArchive limit
      (.ofItems (frame.location ++ "!/" ++ path) (frame.depth + 1) items) =
        turnsOfItems (turnsOfArchive openArchive (limit - (frame.depth + 1))) items := by
    simp [turnsOfFrame, ArchiveFrame.ofItems]
  rw [hframe, hitem, turnsOfItem, hbytes, hlevels, Option.elim_some, turnsOfArchive, hitems,
    Option.elim_some]
  exact Nat.lt_succ_self _

theorem turns_turn? {w next : ArchiveWalk} {given : Option (Except ScanFault RootEntry)}
    (h : w.turn? openArchive f limit = some (given, next)) :
    next.turns openArchive limit < w.turns openArchive limit := by
  obtain ⟨frames, n⟩ := w
  unfold turn? at h
  dsimp only at h
  split at h
  · cases h
  · cases h
    rw [turns_cons]
    exact Nat.lt_add_of_pos_left (Nat.one_pos)
  · rename_i location depth item rest outer
    have hitem := turnsOfItem_pos (turnsOfArchive openArchive (limit - depth)) item.1
    rw [turns_cons, turnsOfFrame_cons]
    split at h
    · cases h
      rw [turns_cons]
      show _ + turns openArchive limit ⟨outer, n⟩ < _
      omega
    · cases h
      rw [turns_cons]
      omega
    · rename_i hstep
      cases h
      have hinner := turns_of_enter hstep
      rw [turns_cons, turns_cons]
      dsimp only at hinner
      omega
    · cases h
      rw [turns_cons]
      omega

variable (openArchive f limit)

/-- What a walk gives until it ends. -/
def run (w : ArchiveWalk) : List (Except ScanFault RootEntry) :=
  match _h : w.turn? openArchive f limit with
  | none => []
  | some (given, next) => given.toList ++ run next
termination_by w.turns openArchive limit
decreasing_by exact turns_turn? _h

end ArchiveWalk

/-- The entries of a root that is an archive, given its bytes if it is a file. -/
def walkArchive (path : String) : Option Bytes → List (Except ScanFault RootEntry)
  | none => [.error (.unreadable path)]
  | some bytes =>
    if !EntryPath.startsArchive bytes then [.error (.notAnArchive path)]
    else
      match openArchive bytes with
      | some items => ArchiveWalk.run openArchive f limit ⟨[.ofItems path 0 items], 0⟩
      | none => [.error (.unreadable path)]

end Walk

/-! ## Zip archives -/

namespace Zip

/-- The item of an entry. -/
def item (data : Data) (e : Entry) : ArchiveItem :=
  match open? data e with
  | none => .unreadable
  | some start => if e.isFolder then .folder else .file e.name (.mk fun _ => content? data e start)

/-- The items of an archive. -/
def items? (bytes : Bytes) : Option (List ArchiveItem) :=
  let data := bytes.toArray
  (entries? data).map fun entries => entries.map (item data)

end Zip

/-! ## Roots -/

/-- The entries of a root. Archives are opened by `openArchive`, and they may lie inside archives
down to some level. -/
def rootEntriesWith (openArchive : OpenArchive) (t : FileTree) (f : NameFilter) (limit : Nat)
    (kind : RootKind) (path : String) : List (Except ScanFault RootEntry) :=
  match kind with
  | .directory => numberEntries 0 (folderEntries t f path)
  | .archive => walkArchive openArchive f limit path (t.read? path)

/-- The entries of a root whose archives are zip archives. -/
def rootEntries :
    FileTree → NameFilter → Nat → RootKind → String → List (Except ScanFault RootEntry) :=
  rootEntriesWith Zip.items?

end ClassAtlas
