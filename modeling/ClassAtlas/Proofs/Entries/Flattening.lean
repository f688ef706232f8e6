-- The walk through an archive gives what a recursion over its items gives. The archives that the
-- walk is in stand on a stack, and what it still has to give is what the recursion makes of the
-- rest of each, from the innermost to the outermost.
import Mathlib.Data.List.Basic
import ClassAtlas.Entries

namespace ClassAtlas

/-! ## The entries of an archive by recursion -/

/-- The entries of one item of an archive at a location. `enter` gives those of an archive
inside it. -/
def itemEntries (f : NameFilter) (location : String)
    (enter : String → Bytes → List (Except ScanFault FoundEntry)) :
    ArchiveItem × Nat → List (Except ScanFault FoundEntry)
  | (.unreadable, position) => [.error (.unreadable s!"{location}!/#{position}")]
  | (.folder, _) => []
  | (.file path content, _) =>
    let inside := location ++ "!/" ++ path
    let name := EntryPath.withoutPackageRoot path
    match EntryPath.className? name with
    | some className =>
      if !f.classAccepted className then []
      else
        match content.get with
        | some bytes => [.ok ⟨name, inside, bytes⟩]
        | none => [.error (.unreadable inside)]
    | none =>
      if !EntryPath.mayBeArchive path || !f.archiveAccepted (EntryPath.fileName path) then []
      else
        match content.get with
        | some bytes => if EntryPath.startsArchive bytes then enter inside bytes else []
        | none => [.error (.unreadable inside)]

/-- The entries of some items of an archive. -/
def itemsEntries (f : NameFilter) (location : String)
    (enter : String → Bytes → List (Except ScanFault FoundEntry)) (items : List ArchiveItem) :
    List (Except ScanFault FoundEntry) :=
  items.zipIdx.flatMap (itemEntries f location enter)

/-- The entries of an archive inside another one, with so many levels left. -/
def nestedEntries (openArchive : OpenArchive) (f : NameFilter) (limit : Nat) :
    Nat → String → Bytes → List (Except ScanFault FoundEntry)
  | 0, location, _ => [.error (.nestedTooDeep location limit)]
  | levels + 1, location, bytes =>
    match openArchive bytes with
    | some items => itemsEntries f location (nestedEntries openArchive f limit levels) items
    | none => [.error (.unreadable location)]

/-- The entries of a root that is an archive, given its bytes if it is a file. -/
def archiveEntries (openArchive : OpenArchive) (f : NameFilter) (limit : Nat) (path : String) :
    Option Bytes → List (Except ScanFault FoundEntry)
  | none => [.error (.unreadable path)]
  | some bytes =>
    if !EntryPath.startsArchive bytes then [.error (.notAnArchive path)]
    else
      match openArchive bytes with
      | some items => itemsEntries f path (nestedEntries openArchive f limit limit) items
      | none => [.error (.unreadable path)]

/-! ## One turn -/

section

variable {openArchive : OpenArchive} {f : NameFilter} {limit : Nat}

/-- What the recursion makes of the rest of an archive. -/
def ArchiveFrame.entries (openArchive : OpenArchive) (f : NameFilter) (limit : Nat)
    (frame : ArchiveFrame) : List (Except ScanFault FoundEntry) :=
  frame.items.flatMap (itemEntries f frame.location
    (nestedEntries openArchive f limit (limit - frame.depth)))

/-- What comes of a step at once or later. -/
def WalkStep.entries (openArchive : OpenArchive) (f : NameFilter) (limit : Nat) :
    WalkStep → List (Except ScanFault FoundEntry)
  | give found => [found]
  | enter inner => inner.entries openArchive f limit
  | pass => []

theorem ArchiveFrame.entries_ofItems (location : String) (depth : Nat) (items : List ArchiveItem) :
    (ofItems location depth items).entries openArchive f limit =
      itemsEntries f location (nestedEntries openArchive f limit (limit - depth)) items := rfl

/-- An archive is entered where the recursion has a level left for it. -/
theorem nestedEntries_eq (frame : ArchiveFrame) (inside : String) (bytes : Bytes) :
    nestedEntries openArchive f limit (limit - frame.depth) inside bytes =
      (frame.stepInto openArchive limit inside bytes).entries openArchive f limit := by
  unfold ArchiveFrame.stepInto
  by_cases hdepth : limit < frame.depth + 1
  · have hlevels : limit - frame.depth = 0 := by omega
    rw [if_pos hdepth, hlevels]
    rfl
  · have hlevels : limit - frame.depth = limit - (frame.depth + 1) + 1 := by omega
    rw [if_neg hdepth, hlevels, nestedEntries]
    cases openArchive bytes with
    | none => rfl
    | some items => exact (ArchiveFrame.entries_ofItems _ _ _).symm

theorem itemEntries_eq (frame : ArchiveFrame) (item : ArchiveItem × Nat) :
    itemEntries f frame.location (nestedEntries openArchive f limit (limit - frame.depth)) item =
      (frame.step openArchive f limit item).entries openArchive f limit := by
  obtain ⟨item, position⟩ := item
  cases item with
  | unreadable => rfl
  | folder => rfl
  | file path content =>
    unfold itemEntries ArchiveFrame.step
    dsimp only
    cases EntryPath.className? (EntryPath.withoutPackageRoot path) with
    | some className =>
      dsimp only
      split
      · rfl
      · cases content.get <;> rfl
    | none =>
      dsimp only
      split
      · rfl
      · cases content.get with
        | none => rfl
        | some bytes =>
          dsimp only
          split
          · exact nestedEntries_eq frame _ bytes
          · rfl

namespace ArchiveWalk

/-- What a walk still has to give. -/
def entries (openArchive : OpenArchive) (f : NameFilter) (limit : Nat) (w : ArchiveWalk) :
    List (Except ScanFault RootEntry) :=
  numberEntries w.ordinal (w.frames.flatMap (ArchiveFrame.entries openArchive f limit))

theorem frames_of_turn?_eq_none {w : ArchiveWalk} (h : w.turn? openArchive f limit = none) :
    w.frames = [] := by
  unfold turn? at h
  split at h
  · assumption
  · cases h
  · split at h <;> cases h

/-- A turn takes off what it gives from what is to be given. -/
theorem entries_turn? {w next : ArchiveWalk} {given : Option (Except ScanFault RootEntry)}
    (h : w.turn? openArchive f limit = some (given, next)) :
    w.entries openArchive f limit = given.toList ++ next.entries openArchive f limit := by
  obtain ⟨frames, n⟩ := w
  unfold turn? at h
  dsimp only at h
  split at h
  · cases h
  · cases h
    rfl
  · rename_i location depth item rest outer
    have hitem : itemEntries f location (nestedEntries openArchive f limit (limit - depth)) item =
        (ArchiveFrame.step openArchive f limit ⟨location, depth, rest⟩ item).entries openArchive f
          limit := itemEntries_eq ⟨location, depth, rest⟩ item
    have hentries : entries openArchive f limit ⟨⟨location, depth, item :: rest⟩ :: outer, n⟩ =
        numberEntries n ((ArchiveFrame.step openArchive f limit ⟨location, depth, rest⟩ item).entries
          openArchive f limit ++
            (⟨location, depth, rest⟩ :: outer).flatMap (ArchiveFrame.entries openArchive f limit)) := by
      rw [← hitem, List.flatMap_cons, ← List.append_assoc]
      rfl
    rw [hentries]
    split at h
    · rename_i e hstep
      cases h
      rw [hstep]
      rfl
    · rename_i fault hstep
      cases h
      rw [hstep]
      rfl
    · rename_i inner hstep
      cases h
      rw [hstep]
      rfl
    · rename_i hstep
      cases h
      rw [hstep]
      rfl

/-! ## The whole walk -/

/-- A walk gives some items and then ends. -/
inductive Ends (openArchive : OpenArchive) (f : NameFilter) (limit : Nat) :
    ArchiveWalk → List (Except ScanFault RootEntry) → Prop
  | done {w : ArchiveWalk} : w.turn? openArchive f limit = none → Ends openArchive f limit w []
  | turn {w next : ArchiveWalk} {given : Option (Except ScanFault RootEntry)}
      {rest : List (Except ScanFault RootEntry)} :
      w.turn? openArchive f limit = some (given, next) → Ends openArchive f limit next rest →
      Ends openArchive f limit w (given.toList ++ rest)

theorem ends_run (w : ArchiveWalk) : w.Ends openArchive f limit (w.run openArchive f limit) := by
  fun_induction run openArchive f limit w with
  | case1 w h => exact .done h
  | case2 w given next h ih => exact .turn h ih

theorem Ends.eq_entries {w : ArchiveWalk} {given : List (Except ScanFault RootEntry)}
    (h : w.Ends openArchive f limit given) : given = w.entries openArchive f limit := by
  induction h with
  | done hturn =>
    unfold entries
    rw [frames_of_turn?_eq_none hturn]
    rfl
  | turn hturn _ ih => rw [entries_turn? hturn, ih]

theorem run_eq (w : ArchiveWalk) : w.run openArchive f limit = w.entries openArchive f limit :=
  (ends_run w).eq_entries

theorem entries_ofItems (path : String) (items : List ArchiveItem) :
    entries openArchive f limit ⟨[.ofItems path 0 items], 0⟩ =
      numberEntries 0 (itemsEntries f path (nestedEntries openArchive f limit limit) items) := by
  unfold entries
  rw [List.flatMap_singleton]
  rfl

end ArchiveWalk

theorem walkArchive_eq (openArchive : OpenArchive) (f : NameFilter) (limit : Nat) (path : String)
    (bytes : Option Bytes) : walkArchive openArchive f limit path bytes =
      numberEntries 0 (archiveEntries openArchive f limit path bytes) := by
  cases bytes with
  | none => rfl
  | some bytes =>
    unfold walkArchive archiveEntries
    dsimp only
    split
    · rfl
    cases openArchive bytes with
    | none => rfl
    | some items => exact (ArchiveWalk.run_eq _).trans (ArchiveWalk.entries_ofItems path items)

/-- The entries of a root are those found in it with their numbers. -/
theorem rootEntriesWith_eq (openArchive : OpenArchive) (t : FileTree) (f : NameFilter) (limit : Nat)
    (kind : RootKind) (path : String) :
    rootEntriesWith openArchive t f limit kind path = numberEntries 0 (match kind with
      | .directory => folderEntries t f path
      | .archive => archiveEntries openArchive f limit path (t.read? path)) := by
  cases kind with
  | directory => rfl
  | archive => exact walkArchive_eq _ _ _ _ _

end

end ClassAtlas
