-- The files of a cache in a file tree. Two archives never share a file, so what is read for
-- one was just written for it or was there before, as long as no link stands among the files.
import ClassAtlas.ArchiveCache
import ClassAtlas.FileTree.Listing
import ClassAtlas.Proofs.FileTree.Canonical
import ClassAtlas.Proofs.FileTree.Writing

namespace ClassAtlas

open ClassAtlas.Path (IsProper IsCanonical)

/-! ## Keys -/

namespace CacheMemory

theorem key_ofNames {place : List String} (h : ∀ name ∈ place, IsProper name) :
    key (Path.ofNames place) = "/" :: place := by
  unfold key
  rw [Path.names_ofNames h]
  by_cases hplace : place = []
  · subst hplace
    rfl
  · rw [if_neg hplace]
    have hkept : place.filter (fun name => !Path.isIdle name) = place :=
      List.filter_eq_self.mpr fun name hname => by rw [(h name hname).notIdle]; rfl
    cases place with
    | nil => exact absurd rfl hplace
    | cons name rest => exact congrArg ("/" :: ·) hkept

/-- Canonical paths are told apart by their keys. -/
theorem key_injective {path path' : String} (h : IsCanonical path) (h' : IsCanonical path')
    (hkey : key path = key path') : path = path' := by
  obtain ⟨place, hnames, rfl⟩ := h
  obtain ⟨place', hnames', rfl⟩ := h'
  rw [key_ofNames hnames, key_ofNames hnames'] at hkey
  rw [(List.cons.inj hkey).2]

end CacheMemory

/-! ## Names of cache files -/

namespace ArchiveCache

open CacheMemory (key)

/-- The characters of a name as they stand in a file name. -/
def escaped (name : String) : List Char := name.toList.flatMap escape

theorem toList_fileName (path : String) : (fileName path).toList =
    "archive".toList ++ (key path).flatMap fun name => '_' :: 'n' :: escaped name := by
  have hfile : fileName path =
      "archive" ++ Text.joined "_n" ("" :: (key path).map fun name => String.ofList (escaped name)) := rfl
  have hparts : (key path).map (String.toList ∘ fun name => String.ofList (escaped name)) =
      (key path).map escaped :=
    List.map_congr_left fun name _ => String.toList_ofList
  have hjoined : (Text.joined "_n" ("" :: (key path).map fun name => String.ofList (escaped name))).toList =
      Text.join ['_', 'n'] ([] :: (key path).map escaped) := by
    rw [Text.joined, String.toList_ofList, List.map_cons, List.map_map, hparts]
    simp
  rw [hfile, String.toList_append, hjoined, Text.join_nil_cons, List.flatMap_map]
  rfl

theorem head_fileName (path : String) : ∃ rest, (fileName path).toList = 'a' :: rest := by
  rw [toList_fileName]
  exact ⟨_, rfl⟩

theorem notIdle_fileName (path : String) : Path.isIdle (fileName path) = false := by
  obtain ⟨rest, hrest⟩ := head_fileName path
  unfold Path.isIdle
  rw [Bool.or_eq_false_iff, decide_eq_false_iff_not, decide_eq_false_iff_not]
  constructor
  · intro heq
    rw [heq] at hrest
    cases hrest
  · intro heq
    rw [heq] at hrest
    cases hrest

theorem fileName_ne_up (path : String) : fileName path ≠ ".." := by
  obtain ⟨rest, hrest⟩ := head_fileName path
  intro heq
  rw [heq] at hrest
  cases hrest

theorem noSlash_escaped (name : String) : '/' ∉ escaped name := by
  unfold escaped
  rw [List.mem_flatMap]
  rintro ⟨c, _, hc⟩
  unfold escape at hc
  split at hc
  · simp at hc
  · split at hc
    · simp at hc
    · rename_i hslash _
      exact hslash (List.mem_singleton.mp hc).symm

theorem noSlash_fileName (path : String) : '/' ∉ (fileName path).toList := by
  rw [toList_fileName, List.mem_append, List.mem_flatMap]
  rintro (harchive | ⟨name, _, hname⟩)
  · simp at harchive
  · simp only [List.mem_cons] at hname
    rcases hname with hmark | hmark | hescaped
    · cases hmark
    · cases hmark
    · exact noSlash_escaped name hescaped

/-- What stands in a file name for a character of a name, and for the start of a name. -/
def codeOf : Option Char → List Char
  | none => ['_', 'n']
  | some c => escape c

/-- The first character that a file name tells, or the start of a name. -/
def readCode : List Char → Option (Option Char × List Char)
  | '_' :: 'n' :: rest => some (none, rest)
  | '_' :: 's' :: rest => some (some '/', rest)
  | '_' :: 'u' :: rest => some (some '_', rest)
  | c :: rest => some (some c, rest)
  | [] => none

theorem readCode_codeOf (a : Option Char) (rest : List Char) :
    readCode (codeOf a ++ rest) = some (a, rest) := by
  cases a with
  | none => rfl
  | some c =>
    show readCode (escape c ++ rest) = some (some c, rest)
    by_cases hslash : c = '/'
    · rw [hslash]
      rfl
    by_cases hmark : c = '_'
    · rw [hmark]
      rfl
    have hplain : escape c = [c] := by rw [escape, if_neg hslash, if_neg hmark]
    simp [readCode, hplain, hmark]

/-- Archives with different keys have different files. -/
theorem key_eq_of_fileName {path path' : String} (h : fileName path = fileName path') :
    key path = key path' := by
  have htext : ∀ path, (fileName path).toList = "archive".toList ++
      (((key path).map String.toList).flatMap fun name => none :: name.map some).flatMap codeOf := by
    intro path
    rw [toList_fileName, List.flatMap_map, List.flatMap_assoc]
    congr 1
    refine List.flatMap_congr fun name _ => ?_
    rw [List.flatMap_cons, List.flatMap_map]
    rfl
  have hcode : ∀ a, codeOf a ≠ [] := by
    intro a hnil
    have hread := readCode_codeOf a []
    rw [hnil] at hread
    cases hread
  have hcodes := congrArg String.toList h
  rw [htext, htext] at hcodes
  have hmarked := codes_unique hcode (fun {a a' rest rest'} heq => ?_) (List.append_cancel_left hcodes)
  · have hnames := marked_words_unique (fun _ _ => Option.some.inj) (fun c => by simp) hmarked
    exact List.map_injective_iff.mpr (fun _ _ => String.toList_inj.mp) hnames
  · have hread := congrArg readCode heq
    rw [readCode_codeOf, readCode_codeOf] at hread
    exact Prod.mk.inj (Option.some.inj hread)

/-! ## Files in a folder -/

/-- No cache file is a link. -/
def Unlinked (folder : Option String) (t : FileTree) : Prop :=
  ∀ f, folder = some f → ∀ path place,
    t.ownPlace? (Path.join f (fileName path)) = some place → t.isLink place = false

section

variable {t : FileTree} {f : String} (h : Unlinked (some f) t)

include h

theorem place?_cacheFile (path : String) :
    t.place? (Path.join f (fileName path)) = t.ownPlace? (Path.join f (fileName path)) := by
  obtain ⟨front, hnames⟩ := Path.exists_names_join f
  exact FileTree.place?_eq_ownPlace? (notIdle_fileName path) (fileName_ne_up path)
    (hnames _ (noSlash_fileName path)) (h f rfl path)

theorem not_link_cacheFile (path : String) (place : Place)
    (hplace : t.place? (Path.join f (fileName path)) = some place) (target : String) :
    t.at? place ≠ some (.link target) := by
  intro hat
  rw [place?_cacheFile h] at hplace
  have hplain := h f rfl path place hplace
  simp [FileTree.isLink, hat] at hplain

/-- A cache file stands at a place with its name. -/
theorem getLast?_cacheFile {path : String} {place : Place}
    (hplace : t.place? (Path.join f (fileName path)) = some place) :
    place.getLast? = some (fileName path) := by
  obtain ⟨front, hnames⟩ := Path.exists_names_join f
  rw [place?_cacheFile h] at hplace
  exact FileTree.getLast?_of_ownPlace? (notIdle_fileName path) (fileName_ne_up path)
    (hnames _ (noSlash_fileName path)) hplace

/-- Cache files at one place belong to archives with one key. -/
theorem key_eq_of_place? {path other : String} {place : Place}
    (hplace : t.place? (Path.join f (fileName path)) = some place)
    (hother : t.place? (Path.join f (fileName other)) = some place) : key other = key path := by
  have hlast := getLast?_cacheFile h hplace
  rw [getLast?_cacheFile h hother] at hlast
  exact key_eq_of_fileName (Option.some.inj hlast)

end

end ArchiveCache

/-- Writing for one archive leaves the files of all others as they are, what comes back for it
is what was written, and the state goes on to be safe. -/
structure CacheFiles.Separate {σ : Type} (files : CacheFiles σ) (Safe : σ → Prop) : Prop where
  safe_write? : ∀ {s s' path bytes}, Safe s → files.write? s path bytes = some s' → Safe s'
  read?_other : ∀ {s s' path bytes other}, Safe s → files.write? s path bytes = some s' →
    CacheMemory.key other ≠ CacheMemory.key path → files.read? s' other = files.read? s other
  read?_back : ∀ {s s' path bytes found}, Safe s → files.write? s path bytes = some s' →
    files.read? s' path = some found → found = bytes

/-- Writing does not fail either, and what was written does come back. -/
structure CacheFiles.Reliable {σ : Type} (files : CacheFiles σ) (Safe : σ → Prop) : Prop
    extends files.Separate Safe where
  exists_write? : ∀ {s}, Safe s → ∀ path bytes, ∃ s', files.write? s path bytes = some s'
  read?_written : ∀ {s s' path bytes}, Safe s → files.write? s path bytes = some s' →
    files.read? s' path = some bytes

namespace ArchiveCache

open CacheMemory (key)

/-- A tree in which the files of a cache can be told apart: the working folder has proper
names, and no cache file is a link. -/
structure Fits (folder : Option String) (t : FileTree) : Prop where
  working : ∀ name ∈ t.workingFolder, IsProper name
  unlinked : Unlinked folder t

/-- A tree in which cache files can be written: each has a place, and no folder stands there. -/
structure Takes (f : String) (t : FileTree) : Prop extends Fits (some f) t where
  place : ∀ path, ∃ place, t.place? (Path.join f (fileName path)) = some place ∧
    t.at? place ≠ some .folder

theorem read?_files (f : String) (t : FileTree) (path : String) :
    (files (some f)).read? t path = t.read? (Path.join f (fileName path)) := by
  simp only [files, Option.bind_some]

section

variable {f : String} {t t' : FileTree} {path : String} {bytes : Bytes}
  (hwritten : (files (some f)).write? t path bytes = some t')

include hwritten

theorem read?_write?_files (h : Fits (some f) t) (other : String) :
    (files (some f)).read? t' other =
      if key other = key path then some bytes else (files (some f)).read? t other := by
  have hwrite : t.write? (Path.join f (fileName path)) bytes = some t' := hwritten
  obtain ⟨place, hplace, _⟩ := FileTree.write?_eq_some hwrite
  rw [read?_files, read?_files, FileTree.read?_write? hwrite (not_link_cacheFile h.unlinked path)]
  by_cases hkey : key other = key path
  · have hname : fileName other = fileName path := by
      unfold fileName
      rw [hkey]
    rw [hname, if_pos rfl, if_pos hkey]
  · rw [if_neg hkey, if_neg]
    intro hsame
    exact hkey (key_eq_of_place? h.unlinked hplace (hsame.trans hplace))

theorem fits_write?_files (h : Fits (some f) t) : Fits (some f) t' := by
  have hwrite : t.write? (Path.join f (fileName path)) bytes = some t' := hwritten
  have hlink := not_link_cacheFile h.unlinked path
  constructor
  · rw [FileTree.workingFolder_write? hwrite]
    exact h.working
  · intro f' hf' other place hplace
    obtain rfl := Option.some.inj hf'
    rw [FileTree.ownPlace?_write? hwrite hlink] at hplace
    exact FileTree.isLink_write? hwrite hlink (h.unlinked f rfl other place hplace)

theorem takes_write?_files (h : Takes f t) : Takes f t' := by
  have hwrite : t.write? (Path.join f (fileName path)) bytes = some t' := hwritten
  have hlink := not_link_cacheFile h.unlinked path
  refine ⟨fits_write?_files hwritten h.toFits, fun other => ?_⟩
  obtain ⟨place, hplace, hfolder⟩ := h.place other
  obtain ⟨q, _, _, hat⟩ := FileTree.at?_write? hwrite hlink
  refine ⟨place, by rw [FileTree.place?_write? hwrite hlink, hplace], ?_⟩
  rw [hat]
  split
  · simp
  · exact hfolder

end

theorem separate_files (folder : Option String) : (files folder).Separate (Fits folder) := by
  cases folder with
  | none =>
    have hnone : ∀ t path, (files none).read? t path = none := fun _ _ => rfl
    refine ⟨fun h hwritten => ?_, fun _ _ _ => ?_, fun _ _ hread => ?_⟩
    · rw [← Option.some.inj hwritten]
      exact h
    · rw [hnone, hnone]
    · rw [hnone] at hread
      cases hread
  | some f =>
    refine ⟨fun h hwritten => fits_write?_files hwritten h, fun h hwritten hkey => ?_,
      fun h hwritten hread => ?_⟩
    · rw [read?_write?_files hwritten h, if_neg hkey]
    · rw [read?_write?_files hwritten h, if_pos rfl] at hread
      exact (Option.some.inj hread).symm

theorem reliable_files (f : String) : (files (some f)).Reliable (Takes f) where
  safe_write? h hwritten := takes_write?_files hwritten h
  read?_other h := (separate_files (some f)).read?_other h.toFits
  read?_back h := (separate_files (some f)).read?_back h.toFits
  exists_write? := by
    intro t h path bytes
    obtain ⟨place, hplace, hfolder⟩ := h.place path
    refine ⟨t.put place (.file bytes t.clock), ?_⟩
    show t.write? (Path.join f (fileName path)) bytes = _
    unfold FileTree.write?
    rw [hplace, Option.bind_eq_bind, Option.bind_some]
    split
    · rename_i hat
      exact absurd hat hfolder
    · rfl
  read?_written h hwritten := by rw [read?_write?_files hwritten h.toFits, if_pos rfl]

/-! ## Trees that fit -/

/-- In a tree without links no cache file is one. -/
theorem fits_of_no_link {folder : Option String} {t : FileTree}
    (hworking : ∀ name ∈ t.workingFolder, IsProper name)
    (hlink : ∀ entry ∈ t.nodes, ∀ target, entry.2 ≠ .link target) : Fits folder t := by
  refine ⟨hworking, fun _ _ _ place _ => ?_⟩
  unfold FileTree.isLink
  split
  · rename_i target hat
    have hne : place ≠ [] := by
      rintro rfl
      cases hat
    exact absurd rfl (hlink _ (FileTree.mem_nodes_of_at? hat hne) target)
  · rfl

/-- A cache has no files in a tree where no name starts like that of one. -/
theorem read?_eq_none {folder : Option String} {t : FileTree} (h : Fits folder t)
    (hnames : ∀ entry ∈ t.nodes, ∀ name ∈ entry.1.getLast?, name.toList.head? ≠ some 'a')
    (path : String) : (files folder).read? t path = none := by
  cases folder with
  | none => rfl
  | some f =>
    rw [read?_files]
    cases hplace : t.place? (Path.join f (fileName path)) with
    | none => simp [FileTree.read?, FileTree.find?, hplace]
    | some place =>
      cases hat : t.at? place with
      | none => simp [FileTree.read?, FileTree.find?, hplace, hat]
      | some node =>
        have hlast := getLast?_cacheFile h.unlinked hplace
        have hne : place ≠ [] := by
          rintro rfl
          cases hlast
        obtain ⟨rest, hrest⟩ := head_fileName path
        have hother := hnames _ (FileTree.mem_nodes_of_at? hat hne) _ hlast
        rw [hrest] at hother
        exact absurd rfl hother

/-- In a folder that is there a cache file stands right below it. -/
theorem place?_cacheFile_of_folder {f : String} {t : FileTree} {folder : Place} (h : Fits (some f) t)
    (hf : f ≠ "") (hend : f.toList.getLast? ≠ some '/') (hplace : t.place? f = some folder)
    (hfolder : t.hasFolder folder = true) (path : String) :
    t.place? (Path.join f (fileName path)) = some (folder ++ [fileName path]) := by
  have hjoin := Path.names_join hf hend (noSlash_fileName path)
  rw [FileTree.place?, if_neg hf] at hplace
  rw [place?_cacheFile h.unlinked,
    FileTree.ownPlace?_eq (notIdle_fileName path) (fileName_ne_up path) hjoin,
    Path.isAbsolute_join hf hend (noSlash_fileName path), hplace, Option.bind_some, if_pos hfolder]

/-- A folder that is there takes cache files, if no name in the tree starts like that of one. -/
theorem takes_of_folder {f : String} {t : FileTree} {folder : Place} (h : Fits (some f) t)
    (hf : f ≠ "") (hend : f.toList.getLast? ≠ some '/') (hplace : t.place? f = some folder)
    (hfolder : t.hasFolder folder = true)
    (hnames : ∀ entry ∈ t.nodes, ∀ name ∈ entry.1.getLast?, name.toList.head? ≠ some 'a') :
    Takes f t := by
  refine ⟨h, fun path => ⟨folder ++ [fileName path],
    place?_cacheFile_of_folder h hf hend hplace hfolder path, fun hat => ?_⟩⟩
  obtain ⟨rest, hrest⟩ := head_fileName path
  have hother := hnames _ (FileTree.mem_nodes_of_at? hat (by simp)) (fileName path) (by simp)
  rw [hrest] at hother
  exact absurd rfl hother

end ArchiveCache

end ClassAtlas
