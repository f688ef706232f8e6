-- A walk through folders passes over those whose package can hold nothing that the filter takes
-- in. It finds what a walk through all folders finds.
import ClassAtlas.Proofs.Entries.Ordinals
import ClassAtlas.Proofs.Filter.Packages

namespace ClassAtlas

/-! ## The walk through all folders -/

namespace Listing

mutual

/-- The files at or below a folder's item that can be read, whatever they hold. -/
def files (location relative : String) : Listing → List FoundEntry
  | file name bytes => [⟨below relative name, Path.join location name, bytes⟩]
  | folder name items => filesOfItems (Path.join location name) (below relative name) items
  | unreadable _ => []

/-- The files at or below some items of a folder. -/
def filesOfItems (location relative : String) : List Listing → List FoundEntry
  | [] => []
  | item :: rest => files location relative item ++ filesOfItems location relative rest

end

end Listing

/-- Whether a file holds a class that a filter takes in. -/
def FoundEntry.isAccepted (f : NameFilter) (e : FoundEntry) : Bool :=
  (EntryPath.className? e.name).any f.classAccepted

/-! ## Files below a folder -/

/-- A path inside a root lies below another one. Every path lies below the root. -/
def LiesBelow (relative path : String) : Prop :=
  relative = "" ∨ ∃ rest, path.toList = relative.toList ++ '/' :: rest

theorem liesBelow_below (relative name : String) : LiesBelow relative (below relative name) := by
  unfold below
  split
  · exact .inl ‹_›
  · exact .inr ⟨name.toList, by simp⟩

theorem LiesBelow.of_below {relative name path : String} (h : LiesBelow (below relative name) path) :
    LiesBelow relative path := by
  by_cases hroot : relative = ""
  · exact .inl hroot
  right
  unfold below at h
  rw [if_neg hroot] at h
  rcases h with h | ⟨rest, hrest⟩
  · simp [← String.toList_eq_nil_iff] at h
  · exact ⟨name.toList ++ '/' :: rest, by simp [hrest]⟩

namespace Listing

mutual

theorem liesBelow_of_mem_files {location relative : String} {e : FoundEntry} :
    (item : Listing) → e ∈ item.files location relative → LiesBelow relative e.name
  | .file name bytes, h => by
    rw [files, List.mem_singleton] at h
    rw [h]
    exact liesBelow_below relative name
  | .folder name items, h => by
    rw [files] at h
    exact (liesBelow_of_mem_filesOfItems items h).of_below
  | .unreadable _, h => by
    rw [files] at h
    cases h

theorem liesBelow_of_mem_filesOfItems {location relative : String} {e : FoundEntry} :
    (items : List Listing) → e ∈ filesOfItems location relative items → LiesBelow relative e.name
  | [], h => by
    rw [filesOfItems] at h
    cases h
  | item :: rest, h => by
    rw [filesOfItems, List.mem_append] at h
    rcases h with h | h
    · exact liesBelow_of_mem_files item h
    · exact liesBelow_of_mem_filesOfItems rest h

end

end Listing

/-- A class whose file lies below a folder is in the folder's package or below it. -/
theorem withinPackage_packageOfFolder {relative path name : String} (hbelow : LiesBelow relative path)
    (hname : EntryPath.className? path = some name) :
    withinPackage (Name.package name) (packageOfFolder relative) := by
  rcases hbelow with rfl | ⟨rest, hpath⟩
  · exact withinPackage_empty _
  unfold EntryPath.className? at hname
  split at hname
  · cases hname
  rename_i stem hstem
  dsimp only at hname
  split at hname
  · cases hname
  cases hname
  rw [Text.dropEnd?_eq_some_iff, hpath] at hstem
  rcases List.append_eq_append_iff.mp hstem with ⟨middle, hmiddle, hend⟩ | ⟨middle, -, hend⟩
  · cases middle with
    | nil => cases hend
    | cons c more =>
      obtain ⟨rfl, -⟩ := List.cons.inj hend
      have hdotted : (Text.replaceChar '/' '.' (String.ofList stem)).toList =
          (packageOfFolder relative).toList ++ '.' :: more.map fun c => if c = '/' then '.' else c := by
        simp [packageOfFolder, Text.replaceChar, hmiddle]
      exact withinPackage_package hdotted
  · -- the extension has no slash, so the folder ends before it
    have hslash : '/' ∈ ".class".toList := hend ▸ by simp
    exact absurd hslash (by decide)

/-! ## Nothing is lost -/

section

variable {f : NameFilter}

/-- A folder that is passed over has no file at or below it that holds an accepted class. -/
theorem not_isAccepted_of_liesBelow {relative : String} {e : FoundEntry}
    (hfolder : f.packageMayContainAccepted (packageOfFolder relative) = false)
    (hbelow : LiesBelow relative e.name) : e.isAccepted f = false := by
  unfold FoundEntry.isAccepted
  cases hname : EntryPath.className? e.name with
  | none => rfl
  | some name =>
    rw [Option.any_some, Bool.eq_false_iff]
    intro haccepted
    have hmay := NameFilter.packageMayContainAccepted_of_accepted haccepted
      (withinPackage_packageOfFolder hbelow hname)
    rw [hfolder] at hmay
    cases hmay

namespace Listing

theorem filter_filesOfItems_eq_nil {location relative : String} (items : List Listing)
    (hfolder : f.packageMayContainAccepted (packageOfFolder relative) = false) :
    (filesOfItems location relative items).filter (·.isAccepted f) = [] := by
  rw [List.filter_eq_nil_iff]
  intro e he
  rw [not_isAccepted_of_liesBelow hfolder (liesBelow_of_mem_filesOfItems items he)]
  exact Bool.false_ne_true

theorem taken_fileEntries (location relative : String) (bytes : Bytes) :
    taken (fileEntries f location relative bytes) =
      [(⟨relative, location, bytes⟩ : FoundEntry)].filter (·.isAccepted f) := by
  unfold fileEntries
  rw [List.filter_singleton, FoundEntry.isAccepted]
  cases EntryPath.className? relative with
  | none => rfl
  | some name =>
    dsimp only
    rw [Option.any_some]
    cases f.classAccepted name <;> rfl

mutual

theorem taken_entries (location relative : String) : (item : Listing) →
    taken (item.entries f location relative) =
      (item.files location relative).filter (·.isAccepted f)
  | .file name bytes => by
    rw [entries, files, taken_fileEntries]
  | .folder name items => by
    rw [entries, files]
    split
    · exact taken_entriesOfItems _ _ items
    · rename_i hfolder
      rw [filter_filesOfItems_eq_nil items (Bool.eq_false_iff.mpr hfolder)]
      rfl
  | .unreadable name => by
    rw [entries, files]
    rfl

theorem taken_entriesOfItems (location relative : String) : (items : List Listing) →
    taken (entriesOfItems f location relative items) =
      (filesOfItems location relative items).filter (·.isAccepted f)
  | [] => by
    rw [entriesOfItems, filesOfItems]
    rfl
  | item :: rest => by
    rw [entriesOfItems, filesOfItems, taken_append, List.filter_append, taken_entries _ _ item,
      taken_entriesOfItems _ _ rest]

end

end Listing

/-- What is taken of a root that is a folder is what the filter takes in of all its files. -/
theorem taken_folderEntries (t : FileTree) (path : String) :
    taken (folderEntries t f path) =
      (Listing.filesOfItems path "" ((t.listings? path).getD [])).filter (·.isAccepted f) := by
  unfold folderEntries
  cases hfind : t.find? path with
  | none =>
    rw [FileTree.listings?, hfind]
    rfl
  | some found =>
    dsimp only
    split
    · exact Listing.taken_entriesOfItems _ _ _
    · rename_i hroot
      have hempty : packageOfFolder "" = "" := by decide
      rw [← hempty] at hroot
      rw [Listing.filter_filesOfItems_eq_nil _ (Bool.eq_false_iff.mpr hroot)]
      rfl

end

/-- The walk that passes over folders takes from any folder, and so from any root, what a walk
through all folders takes, in the same order and with the same numbers: a package that holds an
accepted class, or has one below it, may hold accepted classes, and so may all above it. -/
theorem NameFilter.passing_over_folders_loses_no_class (f : NameFilter) :
    (∀ (location relative : String) (items : List Listing),
      taken (Listing.entriesOfItems f location relative items) =
        (Listing.filesOfItems location relative items).filter (·.isAccepted f)) ∧
    (∀ (openArchive : OpenArchive) (t : FileTree) (limit : Nat) (path : String),
      taken (rootEntriesWith openArchive t f limit .directory path) = FoundEntry.numbered 0
        ((Listing.filesOfItems path "" ((t.listings? path).getD [])).filter (·.isAccepted f))) ∧
    ∀ name package : String, f.classAccepted name → withinPackage (Name.package name) package →
      f.packageMayContainAccepted package ∧
      ∀ top : String, withinPackage package top → f.packageMayContainAccepted top := by
  refine ⟨Listing.taken_entriesOfItems, fun openArchive t limit path => ?_, ?_⟩
  · rw [rootEntriesWith, taken_numberEntries, taken_folderEntries]
  · intro name package haccepted hwithin
    refine ⟨packageMayContainAccepted_of_accepted haccepted hwithin, fun top htop => ?_⟩
    exact packageMayContainAccepted_of_accepted haccepted (withinPackage_trans hwithin htop)

theorem NameFilter.a_rejection_inside_an_acceptance_loses_no_class :
    let f : NameFilter := { acceptPackages := ["a"], rejectPackages := ["a.b"] }
    let items : List Listing :=
      [.folder "a" [.file "Z.class" [1], .folder "b" [.file "N.class" [2]],
          .folder "c.d" [.file "Y.class" [3], .file "notes.txt" [4]]],
        .folder "a.b" [.file "X.class" [5]], .folder "o" [.file "Q.class" [6]]]
    taken (Listing.entriesOfItems f "/r" "" items) =
      [⟨"a/Z.class", "/r/a/Z.class", [1]⟩, ⟨"a/c.d/Y.class", "/r/a/c.d/Y.class", [3]⟩] ∧
    f.classAccepted "a.c.d.Y" ∧ withinPackage (Name.package "a.c.d.Y") "a.c" ∧
    withinPackage "a.c" "a" ∧ f.packageMayContainAccepted "a" := by
  intro f items
  obtain ⟨hfolder, -, hpackages⟩ := passing_over_folders_loses_no_class f
  have haccepted : f.classAccepted "a.c.d.Y" := by decide +kernel
  have hwithin : withinPackage (Name.package "a.c.d.Y") "a.c" := by decide +kernel
  have habove : withinPackage "a.c" "a" := by decide +kernel
  refine ⟨(hfolder "/r" "" items).trans (by decide +kernel), haccepted, hwithin, habove, ?_⟩
  exact (hpackages "a.c.d.Y" "a.c" haccepted hwithin).2 "a" habove

end ClassAtlas
