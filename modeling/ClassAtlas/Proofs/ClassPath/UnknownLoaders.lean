-- Which entries are found from described loaders. The chain of a loader is followed up to its first
-- loader of an unknown kind. All entries of the loaders in front of that one are found, and nothing
-- of it and of those behind it, whether their kinds are known or not.
import Mathlib.Data.List.Perm.Basic
import ClassAtlas.ClassPath.Discovery
import ClassAtlas.Proofs.ClassPath.LookUpOrder

namespace ClassAtlas

/-! ## One loader -/

namespace LoaderDescription

/-- Whether some kind of loaders has the type of this one. -/
def isKnown (d : LoaderDescription) : Bool := d.kind?.isSome

/-- The entries that belong to a loader of a known kind: what its kind gives, and then its plain
paths. A loader of an unknown kind has none. -/
def entries (t : FileTree) (d : LoaderDescription) : List PathEntry :=
  match d.kind? with
  | some kind => d.ownEntries t kind ++ d.paths.map PathEntry.ofPath
  | none => []

variable {t : FileTree} {d : LoaderDescription}

theorem paths?_eq_none (h : d.isKnown = false) : d.paths? t = none := by
  have hkind : d.kind? = none := by simpa [isKnown] using h
  rw [paths?, hkind, Option.map_none]

theorem exists_paths (h : d.isKnown = true) :
    ∃ paths, d.paths? t = some paths ∧ paths.entries = d.entries t := by
  obtain ⟨kind, hkind⟩ := Option.isSome_iff_exists.mp h
  refine ⟨_, by rw [paths?, hkind, Option.map_some], ?_⟩
  rw [entries, hkind]

end LoaderDescription

/-! ## One chain -/

namespace LoaderChain

open LoaderDescription

/-- The loaders in front of the first one of an unknown kind. -/
def reached (chain : List LoaderDescription) : List LoaderDescription := chain.takeWhile isKnown

/-- The first loader of an unknown kind and all behind it. -/
def cutOff (chain : List LoaderDescription) : List LoaderDescription := chain.dropWhile isKnown

/-- The entries of some chains of described loaders in the order of look-up. -/
def found (t : FileTree) (chains : List (List LoaderDescription)) : List PathEntry :=
  (discoverAll t chains).flatMap flatten

variable (t : FileTree)

theorem reached_of_known {d : LoaderDescription} (h : d.isKnown = true)
    (parents : List LoaderDescription) : reached (d :: parents) = d :: reached parents :=
  List.takeWhile_cons_of_pos h

theorem reached_of_unknown {d : LoaderDescription} (h : d.isKnown = false)
    (parents : List LoaderDescription) : reached (d :: parents) = [] :=
  List.takeWhile_cons_of_neg (by simp [h])

theorem discover_of_unknown {d : LoaderDescription} (h : d.isKnown = false)
    (parents : List LoaderDescription) : discover t (d :: parents) = [] := by
  rw [discover, paths?_eq_none h]

theorem discover_reached (chain : List LoaderDescription) :
    discover t (reached chain) = discover t chain := by
  induction chain with
  | nil => rfl
  | cons d parents ih =>
    cases hd : d.isKnown with
    | false => rw [reached_of_unknown hd, discover_of_unknown t hd, discover]
    | true => rw [reached_of_known hd, discover, discover, ih]

/-- The loaders that are discovered have all entries of those that are reached. -/
theorem entries_discover (chain : List LoaderDescription) :
    (discover t chain).flatMap LoaderPaths.entries = (reached chain).flatMap (entries t) := by
  induction chain with
  | nil => rfl
  | cons d parents ih =>
    cases hd : d.isKnown with
    | false =>
      rw [reached_of_unknown hd, discover_of_unknown t hd]
      rfl
    | true =>
      obtain ⟨paths, hpaths, hentries⟩ := exists_paths (t := t) hd
      rw [reached_of_known hd, discover, hpaths, List.flatMap_cons, List.flatMap_cons, ih, hentries]

theorem perm_flatten_discover (chain : List LoaderDescription) :
    (flatten (discover t chain)).Perm ((reached chain).flatMap (entries t)) := by
  rw [← entries_discover]
  exact perm_flatten _

/-! ## Some chains -/

/-- A chain in which nothing is discovered has no entries, so it need not be kept. -/
theorem found_eq (chains : List (List LoaderDescription)) :
    found t chains = chains.flatMap fun chain => flatten (discover t chain) := by
  induction chains with
  | nil => rfl
  | cons chain rest ih =>
    have hcons : found t (chain :: rest) = flatten (discover t chain) ++ found t rest := by
      unfold found discoverAll
      rw [List.map_cons]
      cases hchain : discover t chain with
      | nil => rfl
      | cons loader parents => rfl
    rw [hcons, ih, List.flatMap_cons]

theorem perm_found (chains : List (List LoaderDescription)) :
    (found t chains).Perm (chains.flatMap fun chain => (reached chain).flatMap (entries t)) := by
  rw [found_eq]
  exact (List.Perm.refl chains).flatMap fun chain _ => perm_flatten_discover t chain

/-- The entries of a chain are those of the loaders that are reached and those of the others. -/
theorem perm_entries (chains : List (List LoaderDescription)) :
    (chains.flatMap fun chain => chain.flatMap (entries t)).Perm
      (found t chains ++ chains.flatMap fun chain => (cutOff chain).flatMap (entries t)) := by
  have hsplit : (chains.flatMap fun chain => chain.flatMap (entries t)).Perm
      ((chains.flatMap fun chain => (reached chain).flatMap (entries t)) ++
        chains.flatMap fun chain => (cutOff chain).flatMap (entries t)) := by
    have hchain : (fun chain : List LoaderDescription => chain.flatMap (entries t)) =
        fun chain => (reached chain).flatMap (entries t) ++ (cutOff chain).flatMap (entries t) := by
      funext chain
      rw [← List.flatMap_append, reached, cutOff, List.takeWhile_append_dropWhile]
    rw [hchain]
    exact (List.flatMap_append_perm chains _ _).symm
  exact hsplit.trans ((perm_found t chains).symm.append_right _)

/-- Nothing is missing exactly if the loaders that are not reached have nothing. -/
theorem perm_found_all_iff (chains : List (List LoaderDescription)) :
    (found t chains).Perm (chains.flatMap fun chain => chain.flatMap (entries t)) ↔
      ∀ chain ∈ chains, ∀ d ∈ cutOff chain, d.entries t = [] := by
  have hsplit := perm_entries t chains
  constructor
  · intro hall
    -- the others would be entries beyond those that are found
    have hlength := (hall.trans hsplit).length_eq
    rw [List.length_append] at hlength
    have hnone : (chains.flatMap fun chain => (cutOff chain).flatMap (entries t)) = [] :=
      List.length_eq_zero_iff.mp (by omega)
    intro chain hchain
    exact List.flatMap_eq_nil_iff.mp (List.flatMap_eq_nil_iff.mp hnone chain hchain)
  · intro hnone
    have hempty : (chains.flatMap fun chain => (cutOff chain).flatMap (entries t)) = [] :=
      List.flatMap_eq_nil_iff.mpr fun chain hchain =>
        List.flatMap_eq_nil_iff.mpr (hnone chain hchain)
    rw [hempty, List.append_nil] at hsplit
    exact hsplit.symm

theorem discoverAll_reached (chains : List (List LoaderDescription)) :
    discoverAll t (chains.map reached) = discoverAll t chains := by
  have hreached : discover t ∘ reached = discover t := funext (discover_reached t)
  rw [discoverAll, discoverAll, List.map_map, hreached]

/-- For all chains of described loaders: what stands behind a loader of an unknown kind makes no
difference, and neither does that loader. The entries that are found are those of the loaders in
front, each as often as they have it. So all entries of all loaders of known kinds are found exactly
if none of those behind a loader of an unknown kind has any. -/
theorem a_chain_is_found_up_to_its_first_unknown_loader (chains : List (List LoaderDescription)) :
    discoverAll t (chains.map reached) = discoverAll t chains ∧
    (found t chains).Perm (chains.flatMap fun chain => (reached chain).flatMap (entries t)) ∧
    ((found t chains).Perm (chains.flatMap fun chain => chain.flatMap (entries t)) ↔
      ∀ chain ∈ chains, ∀ d ∈ cutOff chain, d.entries t = []) :=
  ⟨discoverAll_reached t chains, perm_found t chains, perm_found_all_iff t chains⟩

/-- A loader of a type with paths. -/
def described (typeTag : String) (paths : List String) : LoaderDescription :=
  ⟨typeTag, none, paths, none, none, []⟩

/-- An application whose parent is of an unknown kind, and the parent of that one is not. -/
def brokenChain : List LoaderDescription :=
  [described "app" ["/app.jar"], described "osgi" [], described "system" ["/rt.jar"]]

theorem a_loader_behind_an_unknown_one_is_lost :
    ∃ d ∈ brokenChain, d.isKnown = true ∧ ∃ e ∈ d.entries {}, e ∉ found {} [brokenChain] := by
  have hfound : found {} [brokenChain] = [PathEntry.ofPath "/app.jar"] := by cbv
  refine ⟨described "system" ["/rt.jar"], by simp [brokenChain], by decide,
    PathEntry.ofPath "/rt.jar", by decide, ?_⟩
  rw [hfound]
  decide

end LoaderChain

end ClassAtlas
