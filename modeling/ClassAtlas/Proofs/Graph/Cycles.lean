-- Freezing cuts the cycles of supertypes and nothing else. A supertype edge lies inside a
-- component exactly when its target leads back to its source, so without those edges no
-- class is its own ancestor, and every other edge stays.
import ClassAtlas.Proofs.Graph.Components
import ClassAtlas.Proofs.Graph.Scheduling

namespace ClassAtlas

open Relation (TransGen ReflTransGen)

/-! ## Numbered cycles -/

namespace Hierarchy

section

variable {split : List (String × List String) → List (List String)}
  {table : List (String × List String)} {a b : String}

theorem mem_cycles {i : Nat} : (a, i) ∈ cycles split table ↔
    ∃ group, ((split table).filter (isCycle table))[i]? = some group ∧ a ∈ group := by
  unfold cycles
  rw [List.mem_flatMap]
  constructor
  · rintro ⟨⟨group, number⟩, hgroup, ha⟩
    obtain ⟨name, hname, heq⟩ := List.mem_map.mp ha
    obtain ⟨rfl, rfl⟩ := Prod.mk.inj heq
    exact ⟨group, List.mem_zipIdx_iff_getElem?.mp hgroup, hname⟩
  · rintro ⟨group, hgroup, ha⟩
    exact ⟨(group, i), List.mem_zipIdx_iff_getElem?.mpr hgroup, List.mem_map.mpr ⟨a, ha, rfl⟩⟩

theorem isSome_lookup_iff : ((cycles split table).lookup a).isSome = true ↔
    sameCycle (cycles split table) a a = true := by
  unfold sameCycle
  cases (cycles split table).lookup a <;> simp

theorem one_lt_length {group : List String} (ha : a ∈ group) (hb : b ∈ group) (hne : a ≠ b) :
    1 < group.length := by
  cases group with
  | nil => cases ha
  | cons c rest =>
    cases rest with
    | nil => exact absurd ((List.mem_singleton.mp ha).trans (List.mem_singleton.mp hb).symm) hne
    | cons d rest => simp

variable (h : IsComponents table (split table))

include h

theorem IsComponents.group_eq {g g' : List String} (hg : g ∈ split table) (hg' : g' ∈ split table)
    (ha : a ∈ g) (ha' : a ∈ g') : g = g' := by
  by_contra hne
  obtain ⟨front, back, heq⟩ := List.append_of_mem hg
  obtain ⟨_, hdisjoint⟩ := List.nodup_flatten.mp h.nodup
  rw [heq] at hdisjoint hg'
  obtain ⟨_, htail, hfront⟩ := List.pairwise_append.mp hdisjoint
  rcases List.mem_append.mp hg' with hg' | hg'
  · exact hfront g' hg' g List.mem_cons_self ha' ha
  · rcases List.mem_cons.mp hg' with rfl | hg'
    · exact hne rfl
    · exact (List.pairwise_cons.mp htail).1 g' hg' ha ha'

theorem IsComponents.nodup_groups : (split table).Nodup := by
  obtain ⟨_, hdisjoint⟩ := List.nodup_flatten.mp h.nodup
  refine hdisjoint.imp_of_mem ?_
  intro g g' hg _ hapart heq
  subst heq
  cases g with
  | nil => exact h.nonempty hg
  | cons a rest => exact hapart List.mem_cons_self List.mem_cons_self

/-- A class has the number of its group, if that is a cycle. -/
theorem IsComponents.lookup_cycles {i : Nat} : (cycles split table).lookup a = some i ↔
    ∃ group, ((split table).filter (isCycle table))[i]? = some group ∧ a ∈ group := by
  constructor
  · exact fun hlookup => mem_cycles.mp (mem_of_lookup hlookup)
  · rintro ⟨group, hgroup, ha⟩
    obtain ⟨j, hj⟩ := exists_lookup (mem_cycles.mpr ⟨group, hgroup, ha⟩)
    obtain ⟨group', hgroup', ha'⟩ := mem_cycles.mp (mem_of_lookup hj)
    have hmem := (List.mem_filter.mp (List.mem_of_getElem? hgroup)).1
    have hmem' := (List.mem_filter.mp (List.mem_of_getElem? hgroup')).1
    have hsame : group' = group := h.group_eq hmem' hmem ha' ha
    subst hsame
    have hnodup : ((split table).filter (isCycle table)).Nodup := h.nodup_groups.filter _
    have hij := (List.getElem?_inj (List.getElem?_eq_some_iff.mp hgroup).1 hnodup).mp
      (hgroup.trans hgroup'.symm)
    rw [hj, hij]

/-- Two classes lie on one cycle if they are in one group that is a cycle. -/
theorem IsComponents.sameCycle_iff : sameCycle (cycles split table) a b = true ↔
    ∃ group ∈ split table, isCycle table group ∧ a ∈ group ∧ b ∈ group := by
  unfold sameCycle
  constructor
  · intro hsame
    cases hi : (cycles split table).lookup a with
    | none => simp [hi] at hsame
    | some i =>
      cases hj : (cycles split table).lookup b with
      | none => simp [hi, hj] at hsame
      | some j =>
        have hij : i = j := by simpa [hi, hj] using hsame
        subst hij
        obtain ⟨group, hgroup, ha⟩ := h.lookup_cycles.mp hi
        obtain ⟨group', hgroup', hb⟩ := h.lookup_cycles.mp hj
        rw [hgroup] at hgroup'
        cases hgroup'
        obtain ⟨hmem, hcycle⟩ := List.mem_filter.mp (List.mem_of_getElem? hgroup)
        exact ⟨group, hmem, hcycle, ha, hb⟩
  · rintro ⟨group, hmem, hcycle, ha, hb⟩
    obtain ⟨i, hi⟩ := List.mem_iff_getElem?.mp (List.mem_filter.mpr ⟨hmem, hcycle⟩)
    rw [h.lookup_cycles.mpr ⟨group, hi, ha⟩, h.lookup_cycles.mpr ⟨group, hi, hb⟩]
    simp

/-- A supertype edge lies on a cycle if its target leads back to its source. -/
theorem IsComponents.sameCycle_of_leads (hclosed : Closed table) (hab : Leads table a b) :
    sameCycle (cycles split table) a b = true ↔ ReflTransGen (Leads table) b a := by
  obtain ⟨ha, hb⟩ := hclosed.leads hab
  rw [h.sameCycle_iff]
  constructor
  · rintro ⟨group, hmem, _, ha', hb'⟩
    exact ((h.together group hmem a ha' b ((h.mem_iff b).mpr hb)).mp hb').2
  · intro hback
    obtain ⟨group, hmem, ha'⟩ := List.mem_flatten.mp ((h.mem_iff a).mpr ha)
    have hb' : b ∈ group :=
      (h.together group hmem a ha' b ((h.mem_iff b).mpr hb)).mpr ⟨.single hab, hback⟩
    refine ⟨group, hmem, ?_, ha', hb'⟩
    by_cases hlength : 1 < group.length
    · simp [isCycle, hlength]
    · have hsame : ∀ c ∈ group, c = a := by
        intro c hc
        by_contra hne
        exact hlength (one_lt_length hc ha' hne)
      have hloop : a ∈ supertypes table a := by
        have hba := hsame b hb'
        subst hba
        exact hab
      cases group with
      | nil => cases ha'
      | cons c rest =>
        have hc := hsame c List.mem_cons_self
        subst hc
        simp [isCycle, hloop]

/-- A class lies on a cycle if it leads to itself. -/
theorem IsComponents.sameCycle_self_iff (hclosed : Closed table) :
    sameCycle (cycles split table) a a = true ↔ TransGen (Leads table) a a := by
  constructor
  · intro hsame
    obtain ⟨group, hmem, hcycle, ha, _⟩ := h.sameCycle_iff.mp hsame
    by_cases hother : ∃ b ∈ group, b ≠ a
    · obtain ⟨b, hb, hne⟩ := hother
      obtain ⟨hab, hba⟩ :=
        (h.together group hmem a ha b (List.mem_flatten.mpr ⟨group, hmem, hb⟩)).mp hb
      rcases Relation.reflTransGen_iff_eq_or_transGen.mp hab with heq | hab
      · exact absurd heq hne
      · exact hab.trans_left hba
    · have hall : ∀ b ∈ group, b = a := fun b hb => by_contra fun hne => hother ⟨b, hb, hne⟩
      have hnodup := (List.nodup_flatten.mp h.nodup).1 group hmem
      cases group with
      | nil => cases ha
      | cons c rest =>
        cases rest with
        | cons d rest =>
          have hcd : c = d := (hall c (by simp)).trans (hall d (by simp)).symm
          simp [hcd] at hnodup
        | nil =>
          have hc := hall c List.mem_cons_self
          subst hc
          exact .single (by simpa [isCycle, Leads, Search.Leads] using hcycle)
  · intro hself
    obtain ⟨b, hab, hba⟩ := TransGen.head'_iff.mp hself
    obtain ⟨group, hmem, hcycle, ha, _⟩ :=
      h.sameCycle_iff.mp ((h.sameCycle_of_leads hclosed hab).mpr hba)
    exact h.sameCycle_iff.mpr ⟨group, hmem, hcycle, ha, ha⟩

end

/-! ## The table of some classes -/

theorem map_fst_table (pending : List (Definition × List Edge)) :
    (table pending).map Prod.fst = pending.map fun p => p.1.name := by
  simp [table]

theorem closed_table {pending : List (Definition × List Edge)}
    (h : (pending.map fun p => p.1.name).Nodup) : Closed (table pending) where
  names := by rwa [map_fst_table]
  targets := by
    intro e he
    obtain ⟨p, _, rfl⟩ := List.mem_map.mp he
    rw [map_fst_table]
    intro name hname
    exact List.contains_iff_mem.mp (List.mem_filter.mp hname).2

theorem leads_table {pending : List (Definition × List Edge)}
    (h : (pending.map fun p => p.1.name).Nodup) {d : Definition} {edges : List Edge}
    (hd : (d, edges) ∈ pending) {b : String} : Leads (table pending) d.name b ↔
      (∃ e ∈ edges, e.kind.isHierarchy ∧ e.target = b) ∧ b ∈ pending.map fun p => p.1.name := by
  have hlookup : (table pending).lookup d.name =
      some ((named edges).filter (pending.map fun p => p.1.name).contains) :=
    lookup_of_mem (closed_table h).names (List.mem_map.mpr ⟨(d, edges), hd, rfl⟩)
  simp only [Leads, Search.Leads, supertypes, hlookup, Option.getD_some, named, List.mem_filter,
    List.contains_iff_mem, List.mem_map, and_assoc]

end Hierarchy

/-! ## What the graph tells -/

namespace ClassGraph

/-- The record of a class names a supertype that was scanned. -/
def Declares (g : ClassGraph) (a b : String) : Prop :=
  ∃ n ∈ g.nodes, n.name = a ∧ (∃ e ∈ n.record.edges, e.kind.isHierarchy ∧ e.target = b) ∧
    b ∈ g.nodes.map ClassNode.name

/-- An edge of the graph leads from a class to a supertype. -/
def Keeps (g : ClassGraph) (a b : String) : Prop :=
  ∃ n ∈ g.nodes, n.name = a ∧ ∃ e ∈ n.edges, e.kind.isHierarchy ∧ e.target = b

/-- Where the supertype edges are gone that lie on a cycle, those are left whose target does not
lead back. -/
theorem keeps_iff {g : ClassGraph} (hkept : ∀ n ∈ g.nodes, ∀ e, e ∈ n.edges ↔ e ∈ n.record.edges ∧
      e.target ∈ g.nodes.map ClassNode.name ∧
        ¬ (e.kind.isHierarchy ∧ ReflTransGen g.Declares e.target n.name)) {a b : String} :
    g.Keeps a b ↔ g.Declares a b ∧ ¬ ReflTransGen g.Declares b a := by
  constructor
  · rintro ⟨n, hn, rfl, e, he, hkind, rfl⟩
    obtain ⟨hedge, htarget, hnot⟩ := (hkept n hn e).mp he
    exact ⟨⟨n, hn, rfl, ⟨e, hedge, hkind, rfl⟩, htarget⟩, fun hback => hnot ⟨hkind, hback⟩⟩
  · rintro ⟨⟨n, hn, rfl, ⟨e, hedge, hkind, rfl⟩, htarget⟩, hback⟩
    exact ⟨n, hn, rfl, e, (hkept n hn e).mpr ⟨hedge, htarget, fun hnot => hback hnot.2⟩, hkind, rfl⟩

end ClassGraph

namespace GraphBuilder

open Hierarchy (FindsComponents IsComponents)

theorem perm_classes (b : GraphBuilder) : b.classes.Perm (b.slots.map Slot.authoritative) := by
  rw [classes_eq_mergeSort]
  exact List.mergeSort_perm _ _

theorem map_name_pending (b : GraphBuilder) :
    (b.pending.map fun p => p.1.name) = b.classes.map Definition.name := by
  unfold classes
  rw [List.map_map]
  rfl

theorem nodup_classes {b : GraphBuilder} {definitions : List Definition}
    (h : Holds b.slots definitions) : (b.classes.map Definition.name).Nodup := by
  refine ((perm_classes b).map Definition.name).nodup_iff.mpr ?_
  rw [List.map_map]
  exact h.names

theorem pairwise_classes (b : GraphBuilder) :
    b.classes.Pairwise fun c d => arrivesInOrder c.provenance d.provenance := by
  rw [classes_eq_mergeSort]
  exact List.pairwise_mergeSort
    (fun c d e => arrivesInOrder_trans c.provenance d.provenance e.provenance)
    (fun c d => arrivesInOrder_total c.provenance d.provenance) _

/-- The target of a kept edge stands at its position. -/
theorem findIdx?_of_mem_keptEdges {names : List String} {cycles : List (String × Nat)}
    {name : String} {edges : List Edge} {target : Nat} {e : Edge}
    (h : (target, e) ∈ keptEdges names cycles name edges) :
    (names.findIdx? fun other => other = e.target) = some target := by
  obtain ⟨e', _, hresolved⟩ := List.mem_filterMap.mp (List.mem_filter.mp h).1
  obtain ⟨position, hposition, heq⟩ := Option.map_eq_some_iff.mp hresolved
  cases heq
  exact hposition

/-- Without their positions the kept edges are some of the edges of the class, in their order. -/
theorem map_snd_keptEdges (names : List String) (cycles : List (String × Nat)) (name : String)
    (edges : List Edge) : (keptEdges names cycles name edges).map Prod.snd =
      edges.filter fun e => names.contains e.target &&
        !(e.kind.isHierarchy && Hierarchy.sameCycle cycles name e.target) := by
  unfold keptEdges resolvedEdges
  rw [List.filter_filterMap, List.map_filterMap, ← List.filterMap_eq_filter]
  refine List.filterMap_congr fun e _ => ?_
  have hcontains : names.contains e.target =
      (names.findIdx? fun other => other = e.target).isSome := by
    rw [List.findIdx?_isSome, Bool.eq_iff_iff, List.contains_iff_mem]
    simp
  simp only [Option.guard, hcontains]
  cases names.findIdx? fun other => other = e.target with
  | none => rfl
  | some target =>
    cases hcut : !(e.kind.isHierarchy && Hierarchy.sameCycle cycles name e.target) <;>
      simp [Option.filter, hcut]

section

variable (split : List (String × List String) → List (List String)) (b : GraphBuilder)

/-- The edges that a class keeps in the finished graph. -/
def keptOf (p : Definition × List Edge) : List (Nat × Edge) :=
  keptEdges (b.classes.map Definition.name) (Hierarchy.cycles split (Hierarchy.table b.pending))
    p.1.name p.2

/-- The class of the finished graph for a definition. -/
def nodeOf (d : Definition) : ClassNode where
  record := d.record
  provenance := d.provenance
  edges := d.record.edges.filter fun e => (b.classes.map Definition.name).contains e.target &&
    !(e.kind.isHierarchy &&
      Hierarchy.sameCycle (Hierarchy.cycles split (Hierarchy.table b.pending)) d.name e.target)

theorem nodes_eq_map_pending : (b.finishWith split).1.nodes = b.pending.map fun p =>
    ⟨p.1.record, p.1.provenance, (keptOf split b p).map Prod.snd⟩ := by
  unfold keptOf
  rw [← map_name_pending]
  rfl

theorem links_eq_flatMap_pending : (b.finishWith split).1.links = b.pending.zipIdx.flatMap fun x =>
    (keptOf split b x.1).map fun y => (x.2, y.1, y.2) := by
  unfold keptOf
  rw [← map_name_pending]
  rfl

theorem names_finishWith :
    (b.finishWith split).1.nodes.map ClassNode.name = b.classes.map Definition.name := by
  rw [nodes_eq_map_pending, List.map_map, ← map_name_pending]
  rfl

variable {split b} {definitions : List Definition} (h : Holds b.slots definitions)

include h

theorem nodes_finishWith : (b.finishWith split).1.nodes = b.classes.map (nodeOf split b) := by
  let node := fun p : Definition × List Edge =>
    (⟨p.1.record, p.1.provenance, (keptOf split b p).map Prod.snd⟩ : ClassNode)
  calc (b.finishWith split).1.nodes
      = b.pending.map node := nodes_eq_map_pending split b
    _ = (b.classes.map fun d => (d, d.record.edges)).map node := congrArg _ (pending_eq h)
    _ = b.classes.map fun d => node (d, d.record.edges) := List.map_map
    _ = b.classes.map (nodeOf split b) := List.map_congr_left fun d _ =>
        congrArg (ClassNode.mk d.record d.provenance) (map_snd_keptEdges _ _ d.name d.record.edges)

theorem dangling_finishWith : (b.finishWith split).1.dangling = b.classes.flatMap fun d =>
    (d.record.edges.filter fun e => !(b.classes.map Definition.name).contains e.target).map
      fun e => ⟨d.name, e⟩ := by
  unfold finishWith
  dsimp only
  rw [map_name_pending, pending_eq h, List.flatMap_map]

theorem closed_pending : Hierarchy.Closed (Hierarchy.table b.pending) := by
  refine Hierarchy.closed_table ?_
  rw [map_name_pending]
  exact nodup_classes h

/-- In the table a class leads to the supertypes among its edges that were scanned. -/
theorem leads_pending {d : Definition} (hd : d ∈ b.classes) {c : String} :
    Hierarchy.Leads (Hierarchy.table b.pending) d.name c ↔
      (∃ e ∈ d.record.edges, e.kind.isHierarchy ∧ e.target = c) ∧ c ∈ b.classes.map Definition.name := by
  have hmem : (d, d.record.edges) ∈ b.pending := by
    rw [pending_eq h]
    exact List.mem_map.mpr ⟨d, hd, rfl⟩
  rw [← map_name_pending]
  refine Hierarchy.leads_table ?_ hmem
  rw [map_name_pending]
  exact nodup_classes h

theorem declares_eq_leads :
    (b.finishWith split).1.Declares = Hierarchy.Leads (Hierarchy.table b.pending) := by
  funext a c
  apply propext
  unfold ClassGraph.Declares
  rw [names_finishWith, nodes_finishWith h]
  constructor
  · rintro ⟨n, hn, rfl, hedge, hc⟩
    obtain ⟨d, hd, rfl⟩ := List.mem_map.mp hn
    exact (leads_pending h hd).mpr ⟨hedge, hc⟩
  · intro hleads
    have ha := ((closed_pending h).leads hleads).1
    rw [Hierarchy.map_fst_table, map_name_pending] at ha
    obtain ⟨d, hd, rfl⟩ := List.mem_map.mp ha
    obtain ⟨hedge, hc⟩ := (leads_pending h hd).mp hleads
    exact ⟨nodeOf split b d, List.mem_map.mpr ⟨d, hd, rfl⟩, rfl, hedge, hc⟩

variable (hsplit : FindsComponents split)

include hsplit

/-- An edge stays if its target was scanned, unless it is a supertype edge whose target leads
back to its source. -/
theorem mem_edges_finishWith {n : ClassNode} (hn : n ∈ (b.finishWith split).1.nodes) {e : Edge} :
    e ∈ n.edges ↔ e ∈ n.record.edges ∧
      e.target ∈ (b.finishWith split).1.nodes.map ClassNode.name ∧
        ¬ (e.kind.isHierarchy ∧
          ReflTransGen (b.finishWith split).1.Declares e.target n.name) := by
  rw [declares_eq_leads h, names_finishWith]
  rw [nodes_finishWith h] at hn
  obtain ⟨d, hd, rfl⟩ := List.mem_map.mp hn
  have hclosed := closed_pending h
  have hkept : e ∈ (nodeOf split b d).edges ↔ e ∈ d.record.edges ∧
      e.target ∈ b.classes.map Definition.name ∧ ¬ (e.kind.isHierarchy = true ∧
        Hierarchy.sameCycle (Hierarchy.cycles split (Hierarchy.table b.pending)) d.name e.target = true) := by
    unfold nodeOf
    rw [List.mem_filter, Bool.and_eq_true, List.contains_iff_mem, Bool.not_eq_true',
      ← Bool.not_eq_true, Bool.and_eq_true]
  rw [hkept]
  refine and_congr_right fun hedge => and_congr_right fun htarget => not_congr ?_
  refine and_congr_right fun hkind => ?_
  have hleads := (leads_pending h hd).mpr ⟨⟨e, hedge, hkind, rfl⟩, htarget⟩
  exact (hsplit _ hclosed).sameCycle_of_leads hclosed hleads

theorem keeps_finishWith_iff {a c : String} : (b.finishWith split).1.Keeps a c ↔
    (b.finishWith split).1.Declares a c ∧ ¬ ReflTransGen (b.finishWith split).1.Declares c a :=
  ClassGraph.keeps_iff fun _ hn _ => mem_edges_finishWith h hsplit hn

theorem not_transGen_keeps (name : String) : ¬ TransGen (b.finishWith split).1.Keeps name name := by
  intro hcycle
  obtain ⟨c, hkeeps, hback⟩ := TransGen.head'_iff.mp hcycle
  have hdeclares : ReflTransGen (b.finishWith split).1.Declares c name :=
    ReflTransGen.mono (fun _ _ hstep => ((keeps_finishWith_iff h hsplit).mp hstep).1) c name hback
  exact ((keeps_finishWith_iff h hsplit).mp hkeeps).2 hdeclares

/-- The classes on a cycle are reported, in the order of arrival. -/
theorem exists_cyclic : ∃ cyclic : List ClassNode, cyclic.Sublist (b.finishWith split).1.nodes ∧
    (b.finishWith split).2 =
      cyclic.map (fun n => Diagnostic.ofFault (.cyclicHierarchy n.name)) ∧
    ∀ n ∈ (b.finishWith split).1.nodes,
      n ∈ cyclic ↔ TransGen (b.finishWith split).1.Declares n.name n.name := by
  let cycles := Hierarchy.cycles split (Hierarchy.table b.pending)
  have hclosed := closed_pending h
  refine ⟨(b.finishWith split).1.nodes.filter fun n => (cycles.lookup n.name).isSome,
    List.filter_sublist, ?_, ?_⟩
  · unfold finishWith
    simp only [List.filter_map, List.map_map]
    rfl
  · intro n hn
    rw [declares_eq_leads h, List.mem_filter, Hierarchy.isSome_lookup_iff,
      (hsplit _ hclosed).sameCycle_self_iff hclosed]
    exact and_iff_right hn

end

end GraphBuilder

end ClassAtlas
