-- Groups of classes that reach each other. The search puts two classes into one group if
-- each is an ancestor of the other; the groups with a cycle in them are numbered, and two
-- classes with one number lie on one cycle.
import ClassAtlas.Graph.Freeze
import ClassAtlas.Proofs.Graph.Search

namespace ClassAtlas.Hierarchy

open Relation (TransGen ReflTransGen)

/-! ## Tables -/

/-- A table of supertypes leads from a class to each of its supertypes. -/
def Leads (table : List (String × List String)) : String → String → Prop :=
  Search.Leads (supertypes table)

/-- Each class stands once in the table, and all supertypes stand in it. -/
structure Closed (table : List (String × List String)) : Prop where
  names : (table.map Prod.fst).Nodup
  targets : ∀ e ∈ table, e.2 ⊆ table.map Prod.fst

theorem mem_of_lookup {β : Type} {list : List (String × β)} {a : String} {b : β}
    (h : list.lookup a = some b) : (a, b) ∈ list := by
  obtain ⟨front, back, rfl, _⟩ := List.lookup_eq_some_iff.mp h
  simp

theorem exists_lookup {β : Type} {list : List (String × β)} {a : String} {b : β}
    (h : (a, b) ∈ list) : ∃ c, list.lookup a = some c :=
  Option.isSome_iff_exists.mp (List.lookup_isSome_iff.mpr ⟨(a, b), h, beq_self_eq_true a⟩)

theorem lookup_of_mem {β : Type} {list : List (String × β)} {a : String} {b : β}
    (hnames : (list.map Prod.fst).Nodup) (h : (a, b) ∈ list) : list.lookup a = some b := by
  obtain ⟨c, hc⟩ := exists_lookup h
  have heq : (a, b) = (a, c) := List.inj_on_of_nodup_map hnames h (mem_of_lookup hc) rfl
  rw [hc, (Prod.mk.inj heq).2]

theorem mem_supertypes {table : List (String × List String)} {a b : String}
    (h : b ∈ supertypes table a) : ∃ supers, (a, supers) ∈ table ∧ b ∈ supers := by
  unfold supertypes at h
  cases hlookup : table.lookup a with
  | none => simp [hlookup] at h
  | some supers => exact ⟨supers, mem_of_lookup hlookup, by simpa [hlookup] using h⟩

theorem Closed.leads {table : List (String × List String)} (h : Closed table) {a b : String}
    (hab : Leads table a b) : a ∈ table.map Prod.fst ∧ b ∈ table.map Prod.fst := by
  obtain ⟨supers, hmem, hb⟩ := mem_supertypes hab
  exact ⟨List.mem_map.mpr ⟨_, hmem, rfl⟩, h.targets _ hmem hb⟩

theorem Closed.mem_ancestors {table : List (String × List String)} (h : Closed table) {a b : String} :
    b ∈ ancestors table a ↔ TransGen (Leads table) a b := by
  have hall : ∀ x, supertypes table x ⊆ table.map Prod.fst := fun _ _ hy => (h.leads hy).2
  rw [ancestors, Search.mem_reached hall (List.length_map _) (List.nil_subset [a])]
  simp [Leads]

/-! ## Components -/

/-- Two classes of a table belong together if each leads to the other. -/
def Together (table : List (String × List String)) (a b : String) : Prop :=
  ReflTransGen (Leads table) a b ∧ ReflTransGen (Leads table) b a

/-- The groups are the strongly connected components of a table. -/
structure IsComponents (table : List (String × List String)) (groups : List (List String)) : Prop where
  nodup : groups.flatten.Nodup
  nonempty : [] ∉ groups
  mem_iff : ∀ a, a ∈ groups.flatten ↔ a ∈ table.map Prod.fst
  together : ∀ group ∈ groups, ∀ a ∈ group, ∀ b ∈ groups.flatten, b ∈ group ↔ Together table a b

/-- What an algorithm for strongly connected components has to do. -/
def FindsComponents (split : List (String × List String) → List (List String)) : Prop :=
  ∀ table, Closed table → IsComponents table (split table)

theorem Together.symm {table : List (String × List String)} {a b : String}
    (h : Together table a b) : Together table b a := ⟨h.2, h.1⟩

theorem Together.trans {table : List (String × List String)} {a b c : String}
    (hab : Together table a b) (hbc : Together table b c) : Together table a c :=
  ⟨hab.1.trans hbc.1, hbc.2.trans hab.2⟩

/-- The members of a group belong together, and those of different groups do not. -/
structure Grouped (table : List (String × List String)) (groups : List (List String)) : Prop where
  nonempty : [] ∉ groups
  inside : ∀ group ∈ groups, ∀ a ∈ group, ∀ b ∈ group, Together table a b
  apart : groups.Pairwise fun g h => ∀ a ∈ g, ∀ b ∈ h, ¬ Together table a b

section

variable {table : List (String × List String)} {together : String → String → Bool} {name : String}

theorem perm_flatten_place (groups : List (List String)) :
    (place together name groups).flatten.Perm (name :: groups.flatten) := by
  induction groups with
  | nil => exact List.Perm.refl _
  | cons group rest ih =>
    unfold place
    split
    · exact List.Perm.refl _
    · exact (ih.append_left group).trans List.perm_middle

theorem grouped_place {groups : List (List String)} (h : Grouped table groups)
    (htogether : ∀ a ∈ groups.flatten, together name a ↔ Together table name a) :
    Grouped table (place together name groups) := by
  induction groups with
  | nil =>
    refine ⟨by simp [place], ?_, by simp [place]⟩
    intro group hgroup a ha b hb
    rw [List.mem_singleton.mp hgroup] at ha hb
    rw [List.mem_singleton.mp ha, List.mem_singleton.mp hb]
    exact ⟨.refl, .refl⟩
  | cons group rest ih =>
    obtain ⟨hhead, hrest⟩ := List.forall_mem_cons.mp h.inside
    obtain ⟨happart, hpairwise⟩ := List.pairwise_cons.mp h.apart
    have hnonempty : [] ∉ rest := fun hmem => h.nonempty (List.mem_cons_of_mem _ hmem)
    have hmember : ∀ a ∈ group, together name a ↔ Together table name a :=
      fun a ha => htogether a (by simp [ha])
    unfold place
    split
    · rename_i hany
      obtain ⟨c, hc, hname⟩ := List.any_eq_true.mp hany
      have hnamec : Together table name c := (hmember c hc).mp hname
      have hall : ∀ a ∈ name :: group, Together table c a := by
        intro a ha
        rcases List.mem_cons.mp ha with rfl | ha
        · exact hnamec.symm
        · exact hhead c hc a ha
      refine ⟨by simp [hnonempty], List.forall_mem_cons.mpr ⟨?_, hrest⟩,
        List.pairwise_cons.mpr ⟨?_, hpairwise⟩⟩
      · exact fun a ha b hb => (hall a ha).symm.trans (hall b hb)
      · exact fun g hg a ha b hb hab => happart g hg c hc b hb ((hall a ha).trans hab)
    · rename_i hany
      have hnot : ∀ a ∈ group, ¬ Together table name a := by
        intro a ha hname
        exact hany (List.any_eq_true.mpr ⟨a, ha, (hmember a ha).mpr hname⟩)
      have hplaced := ih ⟨hnonempty, hrest, hpairwise⟩ fun a ha => htogether a (by simp_all)
      refine ⟨?_, List.forall_mem_cons.mpr ⟨hhead, hplaced.inside⟩,
        List.pairwise_cons.mpr ⟨?_, hplaced.apart⟩⟩
      · intro hmem
        rcases List.mem_cons.mp hmem with heq | hmem
        · exact h.nonempty (by simp [heq])
        · exact hplaced.nonempty hmem
      · intro g hg a ha b hb
        have hb' : b ∈ name :: rest.flatten :=
          (perm_flatten_place rest).mem_iff.mp (List.mem_flatten.mpr ⟨g, hg, hb⟩)
        rcases List.mem_cons.mp hb' with rfl | hb'
        · exact fun hab => hnot a ha hab.symm
        · obtain ⟨g', hg', hbg'⟩ := List.mem_flatten.mp hb'
          exact happart g' hg' a ha b hbg'

end

theorem Grouped.isComponents {table : List (String × List String)} {groups : List (List String)}
    (h : Grouped table groups) (hperm : groups.flatten.Perm (table.map Prod.fst))
    (hnames : (table.map Prod.fst).Nodup) : IsComponents table groups where
  nodup := hperm.nodup_iff.mpr hnames
  nonempty := h.nonempty
  mem_iff := fun _ => hperm.mem_iff
  together := by
    intro group hgroup a ha b hb
    constructor
    · exact h.inside group hgroup a ha b
    · intro hab
      obtain ⟨other, hother, hbother⟩ := List.mem_flatten.mp hb
      obtain ⟨front, back, rfl⟩ := List.append_of_mem hgroup
      obtain ⟨_, htail, hfront⟩ := List.pairwise_append.mp h.apart
      rcases List.mem_append.mp hother with hother | hother
      · exact absurd hab.symm (hfront other hother group List.mem_cons_self b hbother a ha)
      · rcases List.mem_cons.mp hother with rfl | hother
        · exact hbother
        · exact absurd hab ((List.pairwise_cons.mp htail).1 other hother a ha b hbother)

theorem lookup_map_ancestors (table : List (String × List String)) {a : String}
    (h : a ∈ table.map Prod.fst) :
    (table.map fun e => (e.1, ancestors table e.1)).lookup a = some (ancestors table a) := by
  obtain ⟨e, he, rfl⟩ := List.mem_map.mp h
  have hmem : (e.1, ancestors table e.1) ∈ table.map fun e => (e.1, ancestors table e.1) :=
    List.mem_map.mpr ⟨e, he, rfl⟩
  obtain ⟨c, hc⟩ := exists_lookup hmem
  obtain ⟨d, _, hd⟩ := List.mem_map.mp (mem_of_lookup hc)
  obtain ⟨hname, hvalue⟩ := Prod.mk.inj hd
  rw [hc, ← hvalue, hname]

/-- The groups that the search makes are the strongly connected components. -/
theorem components_findsComponents : FindsComponents components := by
  intro table hclosed
  let above := table.map fun e => (e.1, ancestors table e.1)
  let isBelow := fun a b => ((above.lookup a).getD []).contains b
  let together := fun a b => isBelow a b && isBelow b a
  have hbelow : ∀ a ∈ table.map Prod.fst, ∀ b, isBelow a b = true ↔ TransGen (Leads table) a b := by
    intro a ha b
    rw [← hclosed.mem_ancestors]
    simp [isBelow, above, lookup_map_ancestors table ha]
  have htogether : ∀ a ∈ table.map Prod.fst, ∀ b ∈ table.map Prod.fst, a ≠ b →
      (together a b = true ↔ Together table a b) := by
    intro a ha b hb hne
    rw [Bool.and_eq_true, hbelow a ha, hbelow b hb]
    unfold Together
    rw [Relation.reflTransGen_iff_eq_or_transGen, Relation.reflTransGen_iff_eq_or_transGen]
    simp [hne, Ne.symm hne]
  have hplaced : ∀ names, names.Nodup → names ⊆ table.map Prod.fst →
      (names.foldr (place together) []).flatten.Perm names ∧
        Grouped table (names.foldr (place together) []) := by
    intro names hnodup hsub
    induction names with
    | nil => exact ⟨List.Perm.refl _, by simp, by simp, by simp⟩
    | cons a rest ih =>
      obtain ⟨hnot, hnodup⟩ := List.nodup_cons.mp hnodup
      obtain ⟨ha, hsub⟩ := List.cons_subset.mp hsub
      obtain ⟨hperm, hgrouped⟩ := ih hnodup hsub
      refine ⟨(perm_flatten_place _).trans (hperm.cons a), grouped_place hgrouped ?_⟩
      intro b hb
      have hb' := hperm.mem_iff.mp hb
      exact htogether a ha b (hsub hb') fun heq => hnot (heq ▸ hb')
  obtain ⟨hperm, hgrouped⟩ := hplaced (table.map Prod.fst) hclosed.names (List.Subset.refl _)
  exact hgrouped.isComponents hperm hclosed.names

end ClassAtlas.Hierarchy
