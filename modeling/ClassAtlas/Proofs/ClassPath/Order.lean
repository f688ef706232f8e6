-- The roots of a class path. A place has one root, made of the first entry that leads to it;
-- what is no place, what was seen and what is filtered out takes no rank, so entries at the
-- end of the class path change no root before them.
import Mathlib.Data.List.Basic
import ClassAtlas.ClassPath.Order

namespace ClassAtlas.ClassPath

/-! ## One entry for each path -/

theorem mem_of_mem_firstOfEach {seen : List String} {all : List (String × PathEntry)}
    {found : String × PathEntry} (h : found ∈ firstOfEach seen all) : found ∈ all := by
  induction all generalizing seen with
  | nil => cases h
  | cons first rest ih =>
    rw [firstOfEach] at h
    split at h
    · exact List.mem_cons_of_mem _ (ih h)
    · rcases List.mem_cons.mp h with rfl | h
      · exact List.mem_cons_self
      · exact List.mem_cons_of_mem _ (ih h)

theorem not_seen_of_mem_firstOfEach {seen : List String} {all : List (String × PathEntry)}
    {found : String × PathEntry} (h : found ∈ firstOfEach seen all) : found.1 ∉ seen := by
  induction all generalizing seen with
  | nil => cases h
  | cons first rest ih =>
    rw [firstOfEach] at h
    split at h
    · exact ih h
    · rename_i hfirst
      rcases List.mem_cons.mp h with rfl | h
      · simpa using hfirst
      · exact fun hfound => ih h (List.mem_cons_of_mem _ hfound)

/-- There is one entry for each path. -/
theorem pairwise_firstOfEach (seen : List String) (all : List (String × PathEntry)) :
    (firstOfEach seen all).Pairwise fun a b => a.1 ≠ b.1 := by
  induction all generalizing seen with
  | nil => exact .nil
  | cons first rest ih =>
    rw [firstOfEach]
    split
    · exact ih seen
    · refine .cons (fun other hother heq => ?_) (ih _)
      have hnew := not_seen_of_mem_firstOfEach hother
      rw [← heq] at hnew
      exact hnew List.mem_cons_self

/-- No two roots have the same path. -/
theorem pairwise_roots (lookup : PathLookup) (f : NameFilter) (entries : List PathEntry) :
    (roots lookup f entries).Pairwise fun a b => a.path ≠ b.path := by
  have hfound := (pairwise_firstOfEach [] (located lookup entries)).filter (rootAccepted lookup f)
  rw [← List.zipIdx_map_fst 0 (List.filter _ _), List.pairwise_map] at hfound
  unfold roots
  rw [List.pairwise_map]
  exact hfound

theorem canonical?_of_mem_roots {lookup : PathLookup} {f : NameFilter} {entries : List PathEntry}
    {root : ScanRoot} (h : root ∈ roots lookup f entries) :
    ∃ path, lookup.canonical? path = some root.path := by
  unfold roots at h
  obtain ⟨⟨⟨path, e⟩, rank⟩, hindexed, rfl⟩ := List.mem_map.mp h
  have hfound := mem_of_mem_firstOfEach (List.mem_of_mem_filter (List.fst_mem_of_mem_zipIdx hindexed))
  obtain ⟨e', _, hlocated⟩ := List.mem_filterMap.mp hfound
  obtain ⟨canonical, hcanonical, heq⟩ := Option.map_eq_some_iff.mp hlocated
  obtain ⟨rfl, _⟩ := Prod.mk.inj heq
  exact ⟨e'.path, hcanonical⟩

theorem prefix_firstOfEach (seen : List String) (all more : List (String × PathEntry)) :
    firstOfEach seen all <+: firstOfEach seen (all ++ more) := by
  induction all generalizing seen with
  | nil => exact List.nil_prefix
  | cons first rest ih =>
    rw [List.cons_append, firstOfEach, firstOfEach]
    split
    · exact ih seen
    · exact List.prefix_cons_inj first |>.mpr (ih _)

/-! ## The first entries of a class path -/

/-- The entry of that number is the first one that leads to the place with a path. -/
structure LeadsFirst (lookup : PathLookup) (entries : List PathEntry) (i : Nat) (path : String)
    (e : PathEntry) : Prop where
  entry : entries[i]? = some e
  leads : lookup.canonical? e.path = some path
  first : ∀ j c, j < i → entries[j]? = some c → lookup.canonical? c.path ≠ some path

/-- The entry is an archive and the filter rejects its file name. -/
def Rejects (lookup : PathLookup) (f : NameFilter) (path : String) (e : PathEntry) : Prop :=
  kindOf lookup path e = .archive ∧ EntryPath.fileName path ≠ "" ∧
    f.archiveAccepted (EntryPath.fileName path) = false

/-- Those are the first entries of a class path in their order, with their numbers and with
the paths they lead to. Paths that were seen do not count. -/
structure FirstEntries (lookup : PathLookup) (seen : List String) (entries : List PathEntry)
    (chosen : List (Nat × String × PathEntry)) : Prop where
  ordered : chosen.Pairwise fun a b => a.1 < b.1
  mem_iff : ∀ i path e, (i, path, e) ∈ chosen ↔ LeadsFirst lookup entries i path e ∧ path ∉ seen
  found : chosen.map Prod.snd = firstOfEach seen (located lookup entries)

section

variable {lookup : PathLookup} {f : NameFilter} {path : String} {e : PathEntry}

theorem rootAccepted_iff : rootAccepted lookup f (path, e) = true ↔ ¬ Rejects lookup f path e := by
  unfold rootAccepted Rejects archiveAccepted
  cases kindOf lookup path e with
  | directory => simp
  | archive =>
    by_cases hname : EntryPath.fileName path = ""
    · simp [hname]
    · simp [hname]

theorem leadsFirst_zero {c : PathEntry} {rest : List PathEntry} :
    LeadsFirst lookup (c :: rest) 0 path e ↔ c = e ∧ lookup.canonical? e.path = some path := by
  constructor
  · rintro ⟨hentry, hleads, _⟩
    exact ⟨by simpa using hentry, hleads⟩
  · rintro ⟨rfl, hleads⟩
    exact ⟨rfl, hleads, fun j _ hj => absurd hj (Nat.not_lt_zero j)⟩

theorem leadsFirst_succ {c : PathEntry} {rest : List PathEntry} {i : Nat} :
    LeadsFirst lookup (c :: rest) (i + 1) path e ↔
      lookup.canonical? c.path ≠ some path ∧ LeadsFirst lookup rest i path e := by
  constructor
  · rintro ⟨hentry, hleads, hfirst⟩
    exact ⟨hfirst 0 c (Nat.succ_pos i) rfl, hentry, hleads,
      fun j d hj hd => hfirst (j + 1) d (Nat.succ_lt_succ hj) hd⟩
  · rintro ⟨hc, hentry, hleads, hfirst⟩
    refine ⟨hentry, hleads, fun j d hj hd => ?_⟩
    cases j with
    | zero =>
      obtain rfl : c = d := by simpa using hd
      exact hc
    | succ j => exact hfirst j d (Nat.lt_of_succ_lt_succ hj) hd

/-- The numbers of entries with one more entry in front of them. -/
def shifted (chosen : List (Nat × String × PathEntry)) : List (Nat × String × PathEntry) :=
  chosen.map fun c => (c.1 + 1, c.2)

theorem mem_shifted {chosen : List (Nat × String × PathEntry)} {i : Nat}
    {found : String × PathEntry} :
    (i, found) ∈ shifted chosen ↔ ∃ j, i = j + 1 ∧ (j, found) ∈ chosen := by
  unfold shifted
  rw [List.mem_map]
  constructor
  · rintro ⟨⟨j, _⟩, hmem, heq⟩
    obtain ⟨rfl, rfl⟩ := Prod.mk.inj heq
    exact ⟨j, rfl, hmem⟩
  · rintro ⟨j, rfl, hmem⟩
    exact ⟨(j, found), hmem, rfl⟩

theorem pairwise_shifted {chosen : List (Nat × String × PathEntry)}
    (h : chosen.Pairwise fun a b => a.1 < b.1) : (shifted chosen).Pairwise fun a b => a.1 < b.1 := by
  unfold shifted
  rw [List.pairwise_map]
  exact h.imp Nat.succ_lt_succ

theorem map_snd_shifted (chosen : List (Nat × String × PathEntry)) :
    (shifted chosen).map Prod.snd = chosen.map Prod.snd := by
  unfold shifted
  rw [List.map_map]
  rfl

/-- An entry that leads nowhere, or to a path that was seen, is passed over. -/
theorem FirstEntries.skip {seen : List String} {rest : List PathEntry} {c : PathEntry}
    {chosen : List (Nat × String × PathEntry)} (h : FirstEntries lookup seen rest chosen)
    (hc : ∀ path, lookup.canonical? c.path = some path → path ∈ seen) :
    FirstEntries lookup seen (c :: rest) (shifted chosen) where
  ordered := pairwise_shifted h.ordered
  mem_iff := by
    intro i path e
    cases i with
    | zero =>
      simp only [mem_shifted, leadsFirst_zero]
      constructor
      · rintro ⟨j, hj, _⟩
        cases hj
      · rintro ⟨⟨rfl, hleads⟩, hnew⟩
        exact absurd (hc path hleads) hnew
    | succ i =>
      simp only [mem_shifted, leadsFirst_succ, Nat.add_right_cancel_iff, exists_eq_left', h.mem_iff]
      constructor
      · rintro ⟨hfirst, hnew⟩
        exact ⟨⟨fun hleads => hnew (hc path hleads), hfirst⟩, hnew⟩
      · rintro ⟨⟨_, hfirst⟩, hnew⟩
        exact ⟨hfirst, hnew⟩
  found := by
    rw [map_snd_shifted, h.found]
    unfold located
    rw [List.filterMap_cons]
    cases hleads : lookup.canonical? c.path with
    | none => rfl
    | some path =>
      have hseen : seen.contains path = true := List.contains_iff_mem.mpr (hc path hleads)
      rw [Option.map_some, firstOfEach, if_pos hseen]

/-- An entry that leads to a new path is taken, and its path is seen from then on. -/
theorem FirstEntries.take {seen : List String} {rest : List PathEntry} {c : PathEntry} {top : String}
    {chosen : List (Nat × String × PathEntry)} (h : FirstEntries lookup (top :: seen) rest chosen)
    (hleads : lookup.canonical? c.path = some top) (hnew : top ∉ seen) :
    FirstEntries lookup seen (c :: rest) ((0, top, c) :: shifted chosen) where
  ordered := by
    refine .cons (fun other hother => ?_) (pairwise_shifted h.ordered)
    obtain ⟨j, hj, _⟩ := mem_shifted.mp hother
    rw [hj]
    exact Nat.succ_pos j
  mem_iff := by
    intro i path e
    rw [List.mem_cons, mem_shifted]
    cases i with
    | zero =>
      rw [leadsFirst_zero]
      constructor
      · rintro (heq | ⟨j, hj, _⟩)
        · obtain ⟨rfl, rfl⟩ := Prod.mk.inj (Prod.mk.inj heq).2
          exact ⟨⟨rfl, hleads⟩, hnew⟩
        · cases hj
      · rintro ⟨⟨rfl, hpath⟩, _⟩
        rw [hleads] at hpath
        exact Or.inl (by rw [Option.some.inj hpath])
    | succ i =>
      rw [leadsFirst_succ, hleads]
      constructor
      · rintro (heq | ⟨j, hj, hmem⟩)
        · cases heq
        · obtain rfl := Nat.succ.inj hj
          obtain ⟨hfirst, hpath⟩ := (h.mem_iff i path e).mp hmem
          obtain ⟨hne, hseen⟩ := not_or.mp (mt List.mem_cons.mpr hpath)
          exact ⟨⟨fun heq => hne (Option.some.inj heq).symm, hfirst⟩, hseen⟩
      · rintro ⟨⟨hne, hfirst⟩, hseen⟩
        refine Or.inr ⟨i, rfl, (h.mem_iff i path e).mpr ⟨hfirst, ?_⟩⟩
        exact mt List.mem_cons.mp (not_or.mpr ⟨fun heq => hne (by rw [heq]), hseen⟩)
  found := by
    have hseen : ¬ seen.contains top = true := fun h => hnew (List.contains_iff_mem.mp h)
    rw [List.map_cons, map_snd_shifted, h.found]
    unfold located
    rw [List.filterMap_cons, hleads, Option.map_some, firstOfEach, if_neg hseen]

/-- One pass over the entries finds the first ones. -/
theorem exists_firstEntries (lookup : PathLookup) (seen : List String) (entries : List PathEntry) :
    ∃ chosen, FirstEntries lookup seen entries chosen := by
  induction entries generalizing seen with
  | nil =>
    refine ⟨[], .nil, fun i path e => ?_, rfl⟩
    constructor
    · intro hmem
      cases hmem
    · rintro ⟨⟨hentry, _, _⟩, _⟩
      simp at hentry
  | cons c rest ih =>
    by_cases hseen : ∀ path, lookup.canonical? c.path = some path → path ∈ seen
    · obtain ⟨chosen, hchosen⟩ := ih seen
      exact ⟨shifted chosen, hchosen.skip hseen⟩
    · simp only [not_forall] at hseen
      obtain ⟨top, hleads, hnew⟩ := hseen
      obtain ⟨chosen, hchosen⟩ := ih (top :: seen)
      exact ⟨_, hchosen.take hleads hnew⟩

end

/-! ## Roots -/

theorem entries_append (overrides : List String) (chains more : List LoaderChain) :
    entries overrides (chains ++ more) =
      entries overrides chains ++ more.flatMap LoaderChain.flatten := by
  unfold entries
  rw [List.flatMap_append, List.append_assoc]

/-- More entries at the end leave the roots as they are. -/
theorem prefix_roots (lookup : PathLookup) (f : NameFilter) (all more : List PathEntry) :
    roots lookup f all <+: roots lookup f (all ++ more) := by
  have hfirst := (prefix_firstOfEach [] (located lookup all) (located lookup more)).filter
    (rootAccepted lookup f)
  have hlocated : located lookup (all ++ more) = located lookup all ++ located lookup more :=
    List.filterMap_append
  obtain ⟨rest, hrest⟩ := hfirst
  unfold roots
  rw [hlocated, ← hrest, List.zipIdx_append, List.map_append]
  exact List.prefix_append _ _

theorem missing_eq (lookup : PathLookup) (all : List PathEntry) : missing lookup all =
    (all.filter fun e => lookup.canonical? e.path = none).map fun e =>
      Diagnostic.ofFault (.pathNotFound e.path) := by
  induction all with
  | nil => rfl
  | cons e rest ih =>
    unfold missing at ih ⊢
    rw [List.filterMap_cons, List.filter_cons]
    cases hleads : lookup.canonical? e.path with
    | none => simp [ih]
    | some path => simp [ih]

/-- For all filters, overrides and chains of loaders, wherever paths lead: the roots are made,
in the order of the entries, of those that are the first to lead to a place, but for archives
with a rejected name. The rank of a root is its number among the roots, its kind is told by its
entry or else by what stands at its place. No two roots have one path; each entry that leads
nowhere is reported; and more loaders at the end change no root. -/
theorem roots_are_made_of_the_first_entries (lookup : PathLookup) (f : NameFilter)
    (overrides : List String) (chains : List LoaderChain) :
    let all := overrides.map PathEntry.ofPath ++ chains.flatMap LoaderChain.flatten
    let found := roots lookup f (entries overrides chains)
    (∃ chosen : List (Nat × String × PathEntry), chosen.Pairwise (fun a b => a.1 < b.1) ∧
      (∀ i path e, (i, path, e) ∈ chosen ↔
        LeadsFirst lookup all i path e ∧ ¬ Rejects lookup f path e) ∧
      found = chosen.zipIdx.map fun ((_, path, e), rank) =>
        { path, rank, module := e.module,
          kind := e.kind.getD (if lookup.isFolder path then .directory else .archive) }) ∧
    (found.map ScanRoot.path).Nodup ∧
    missing lookup (entries overrides chains) =
      ((all.filter fun e => lookup.canonical? e.path = none).map fun e =>
        Diagnostic.ofFault (.pathNotFound e.path)) ∧
    ∀ more, found <+: roots lookup f (entries overrides (chains ++ more)) := by
  intro all found
  obtain ⟨chosen, hchosen⟩ := exists_firstEntries lookup [] all
  refine ⟨⟨chosen.filter fun c => rootAccepted lookup f c.2, hchosen.ordered.filter _, ?_, ?_⟩,
    List.pairwise_map.mpr (pairwise_roots lookup f _), missing_eq lookup all, ?_⟩
  · intro i path e
    rw [List.mem_filter, hchosen.mem_iff, rootAccepted_iff]
    simp
  · have hfound : (chosen.filter fun c => rootAccepted lookup f c.2).map Prod.snd =
        (firstOfEach [] (located lookup all)).filter (rootAccepted lookup f) := by
      rw [← hchosen.found, List.filter_map]
      rfl
    show ((firstOfEach [] (located lookup all)).filter (rootAccepted lookup f)).zipIdx.map _ = _
    rw [← hfound, List.zipIdx_map, List.map_map]
    rfl
  · intro more
    rw [entries_append]
    exact prefix_roots lookup f _ _

/-- An archive under another name, one that is rejected and one that is not there take no rank. -/
example :
    let lookup : PathLookup := {
      canonical? := fun path =>
        if path = "/gone.jar" then none else some (if path = "/link" then "/shed.jar" else path)
      isFolder := fun path => path = "/classes" }
    let filter := NameFilter.ofPatterns [] [] [] ["loft*"]
    let loader : LoaderPaths := ⟨"app", [PathEntry.ofPath "/classes"], .parentFirst⟩
    roots lookup filter (entries ["/shed.jar", "/link", "/loft.jar", "/gone.jar"] [[loader]]) =
      [⟨"/shed.jar", .archive, 0, none⟩, ⟨"/classes", .directory, 1, none⟩] := by
  decide +kernel

end ClassAtlas.ClassPath
