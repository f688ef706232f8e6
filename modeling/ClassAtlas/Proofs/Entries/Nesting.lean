-- Where the entries of an archive come from. The location of an entry is the root and the names
-- along the nesting of archives that lead to it.
import ClassAtlas.Proofs.Entries.Flattening
import ClassAtlas.Proofs.Entries.Ordinals
import ClassAtlas.Proofs.Text.Parts

namespace ClassAtlas

/-! ## Names along a nesting -/

/-- How an item is named in a location: a file by its path, and what is none by its position. -/
def ArchiveItem.nameAt (position : Nat) : ArchiveItem → String
  | file path _ => path
  | _ => "#" ++ toString position

/-- Names lead from some items to an item: each name but the last is that of an archive among the
items so far, and the last one names the item in the innermost archive. -/
inductive Leads (openArchive : OpenArchive) : List ArchiveItem → List String → ArchiveItem → Prop
  | here {items : List ArchiveItem} {item : ArchiveItem} {position : Nat} :
      (item, position) ∈ items.zipIdx → Leads openArchive items [item.nameAt position] item
  | inside {items inner : List ArchiveItem} {path : String} {content : Thunk (Option Bytes)}
      {bytes : Bytes} {names : List String} {item : ArchiveItem} :
      .file path content ∈ items → content.get = some bytes → openArchive bytes = some inner →
      Leads openArchive inner names item → Leads openArchive items (path :: names) item

/-- The location that names lead to from an archive at another location. -/
def locationOf (location : String) (names : List String) : String :=
  Text.joined "!/" (location :: names)

/-- What may be found for an item at a location. -/
inductive FoundFor (f : NameFilter) (limit : Nat) (location : String) :
    ArchiveItem → Except ScanFault FoundEntry → Prop
  | entry {path className : String} {content : Thunk (Option Bytes)} {bytes : Bytes} :
      content.get = some bytes →
      EntryPath.className? (EntryPath.withoutPackageRoot path) = some className →
      f.classAccepted className →
      FoundFor f limit location (.file path content)
        (.ok ⟨EntryPath.withoutPackageRoot path, location, bytes⟩)
  | unreadable {item : ArchiveItem} : FoundFor f limit location item (.error (.unreadable location))
  | tooDeep {path : String} {content : Thunk (Option Bytes)} {bytes : Bytes} :
      content.get = some bytes →
      FoundFor f limit location (.file path content) (.error (.nestedTooDeep location limit))

theorem locationOf_singleton (location name : String) :
    locationOf location [name] = location ++ "!/" ++ name := by
  apply String.toList_injective
  simp [locationOf, Text.joined, Text.join]

theorem locationOf_cons (location name next : String) (names : List String) :
    locationOf location (name :: next :: names) =
      locationOf (location ++ "!/" ++ name) (next :: names) := by
  apply String.toList_injective
  simp [locationOf, Text.joined, Text.join_cons_cons, List.append_assoc]

theorem Leads.ne_nil {openArchive : OpenArchive} {items : List ArchiveItem} {names : List String}
    {item : ArchiveItem} (h : Leads openArchive items names item) : names ≠ [] := by
  cases h <;> simp

/-! ## Everything found is told where it lies -/

section

variable {openArchive : OpenArchive} {f : NameFilter} {limit : Nat}

/-- What the recursion makes of an item is found for the item itself, or it comes from an archive
that the item is. -/
theorem foundFor_of_mem_itemEntries {location : String} {position : Nat} {item : ArchiveItem}
    {enter : String → Bytes → List (Except ScanFault FoundEntry)}
    {found : Except ScanFault FoundEntry}
    (h : found ∈ itemEntries f location enter (item, position)) :
    FoundFor f limit (locationOf location [item.nameAt position]) item found ∨
      ∃ path content bytes, item = .file path content ∧ content.get = some bytes ∧
        found ∈ enter (location ++ "!/" ++ path) bytes := by
  rw [locationOf_singleton]
  cases item with
  | unreadable =>
    have hlocation : s!"{location}!/#{position}" =
        location ++ "!/" ++ ArchiveItem.unreadable.nameAt position := by
      apply String.toList_injective
      simp [ArchiveItem.nameAt, toString, List.append_assoc]
    have hfound : found = .error (.unreadable s!"{location}!/#{position}") := List.mem_singleton.mp h
    rw [hfound, hlocation]
    exact .inl .unreadable
  | folder => cases h
  | file path content =>
    unfold itemEntries at h
    dsimp only at h
    split at h
    · rename_i className hclass
      split at h
      · cases h
      rename_i haccepted
      split at h
      · rename_i bytes hbytes
        rw [List.mem_singleton] at h
        exact .inl (h ▸ .entry hbytes hclass (by simpa using haccepted))
      · rw [List.mem_singleton] at h
        exact .inl (h ▸ .unreadable)
    · split at h
      · cases h
      split at h
      · rename_i bytes hbytes
        split at h
        · exact .inr ⟨path, content, bytes, rfl, hbytes, h⟩
        · cases h
      · rw [List.mem_singleton] at h
        exact .inl (h ▸ .unreadable)

/-- What the recursion makes of an archive inside another one is found for the archive itself, or
it comes from its items with one level less. -/
theorem foundFor_of_mem_nestedEntries {levels : Nat} {location path : String}
    {content : Thunk (Option Bytes)} {bytes : Bytes} {found : Except ScanFault FoundEntry}
    (hbytes : content.get = some bytes)
    (h : found ∈ nestedEntries openArchive f limit levels location bytes) :
    FoundFor f limit location (.file path content) found ∨
      ∃ fewer items, levels = fewer + 1 ∧ openArchive bytes = some items ∧
        found ∈ itemsEntries f location (nestedEntries openArchive f limit fewer) items := by
  cases levels with
  | zero =>
    rw [nestedEntries, List.mem_singleton] at h
    exact .inl (h ▸ .tooDeep hbytes)
  | succ fewer =>
    rw [nestedEntries] at h
    cases hopen : openArchive bytes with
    | none =>
      rw [hopen, List.mem_singleton] at h
      exact .inl (h ▸ .unreadable)
    | some items =>
      rw [hopen] at h
      exact .inr ⟨fewer, items, rfl, rfl, h⟩

/-- All that the recursion finds in some items lies where names lead, through no more archives
than there are levels. -/
theorem exists_leads {levels : Nat} {location : String} {items : List ArchiveItem}
    {found : Except ScanFault FoundEntry}
    (h : found ∈ itemsEntries f location (nestedEntries openArchive f limit levels) items) :
    ∃ names item, Leads openArchive items names item ∧ names.length ≤ levels + 1 ∧
      FoundFor f limit (locationOf location names) item found := by
  induction levels using Nat.strongRecOn generalizing location items with
  | _ levels ih =>
    obtain ⟨⟨item, position⟩, hitem, hfound⟩ := List.mem_flatMap.mp h
    rcases foundFor_of_mem_itemEntries hfound with hhere | ⟨path, content, bytes, rfl, hbytes, hin⟩
    · exact ⟨_, item, .here hitem, Nat.le_add_left 1 levels, hhere⟩
    rcases foundFor_of_mem_nestedEntries hbytes hin with hhere | ⟨fewer, inner, rfl, hopen, hin⟩
    · rw [← locationOf_singleton] at hhere
      exact ⟨_, _, .here hitem, Nat.le_add_left 1 levels, hhere⟩
    obtain ⟨names, item, hleads, hlength, hfor⟩ := ih fewer (Nat.lt_succ_self fewer) hin
    refine ⟨path :: names, item, .inside (List.fst_mem_of_mem_zipIdx hitem) hbytes hopen hleads,
      Nat.succ_le_succ hlength, ?_⟩
    obtain ⟨next, others, rfl⟩ := List.exists_cons_of_ne_nil hleads.ne_nil
    rw [locationOf_cons]
    exact hfor

/-! ## A whole archive -/

/-- A walk through an archive ends with the entries that the recursion finds, from the first to
the last. Those that are taken are numbered without gaps, and whatever is found in the archive
is told at the location that the names of the archives around it lead to. -/
theorem ArchiveWalk.the_walk_is_the_recursion (openArchive : OpenArchive) (f : NameFilter)
    (limit : Nat) (path : String) :
    (∀ items : List ArchiveItem,
      let found := itemsEntries f path (nestedEntries openArchive f limit limit) items
      Ends openArchive f limit ⟨[.ofItems path 0 items], 0⟩ (numberEntries 0 found) ∧
      ∀ x ∈ found, ∃ names item, Leads openArchive items names item ∧ names.length ≤ limit + 1 ∧
        FoundFor f limit (locationOf path names) item x) ∧
    ∀ bytes : Option Bytes,
      walkArchive openArchive f limit path bytes =
        numberEntries 0 (archiveEntries openArchive f limit path bytes) ∧
      (taken (walkArchive openArchive f limit path bytes)).map RootEntry.ordinal =
        List.range (taken (walkArchive openArchive f limit path bytes)).length := by
  refine ⟨fun items => ⟨?_, fun x hx => exists_leads hx⟩, fun bytes => ?_⟩
  · rw [← entries_ofItems, ← run_eq]
    exact ends_run _
  · have hwalk := walkArchive_eq openArchive f limit path bytes
    refine ⟨hwalk, ?_⟩
    rw [hwalk, taken_numberEntries, FoundEntry.map_ordinal_numbered, FoundEntry.length_numbered,
      List.range_eq_range']

/-- An archive with an item that cannot be opened, an archive with the same bytes, a class that
cannot be read and one that can. -/
def jarInItself : List ArchiveItem :=
  [.unreadable, .file "a.jar" (.pure (some [0x50, 0x4B, 3, 4])), .file "B.class" (.pure none),
    .file "c/C.class" (.pure (some [1]))]

theorem ArchiveWalk.an_archive_in_itself_is_entered_once :
    walkArchive (fun _ => some jarInItself) {} 1 "r" (some [0x50, 0x4B, 3, 4]) =
      [.error (.unreadable "r!/#0"), .error (.unreadable "r!/a.jar!/#0"),
        .error (.nestedTooDeep "r!/a.jar!/a.jar" 1), .error (.unreadable "r!/a.jar!/B.class"),
        .ok ⟨0, "c/C.class", "r!/a.jar!/c/C.class", [1]⟩, .error (.unreadable "r!/B.class"),
        .ok ⟨1, "c/C.class", "r!/c/C.class", [1]⟩] ∧
    ∃ names item, Leads (fun _ => some jarInItself) jarInItself names item ∧ names.length ≤ 2 ∧
      FoundFor {} 1 (locationOf "r" names) item (.ok ⟨"c/C.class", "r!/a.jar!/c/C.class", [1]⟩) := by
  obtain ⟨hfound, hwalk⟩ := the_walk_is_the_recursion (fun _ => some jarInItself) {} 1 "r"
  refine ⟨(hwalk (some [0x50, 0x4B, 3, 4])).1.trans (by decide +kernel), ?_⟩
  exact (hfound jarInItself).2 _ (by decide +kernel)

end

end ClassAtlas
