-- Definitions that arrive behind all others. They take no name and no place from those, so the
-- classes of the smaller graph are the front of the larger one. What may change is that a
-- dangling edge finds its target and that a supertype edge comes to lie on a cycle.
import ClassAtlas.Proofs.Graph.Conservation

namespace ClassAtlas.GraphBuilder

/-! ## The classes -/

theorem mem_classes_iff_authoritative {definitions : List Definition} {b : GraphBuilder}
    (h : Holds b.slots definitions) (hdistinct : (definitions.map Definition.arrival).Nodup)
    {d : Definition} : d ∈ b.classes ↔ Authoritative definitions d := by
  rw [(perm_classes b).mem_iff, h.mem_authoritative hdistinct]

theorem nodup_front {definitions more : List Definition}
    (h : ((definitions ++ more).map Definition.arrival).Nodup) :
    (definitions.map Definition.arrival).Nodup := by
  rw [List.map_append] at h
  exact (List.nodup_append.mp h).1

/-- The classes of one collection whose names are new to another. -/
def newClasses (b b' : GraphBuilder) : List Definition :=
  b'.classes.filter fun d => !(b.classes.map Definition.name).contains d.name

theorem mem_newClasses {b b' : GraphBuilder} {d : Definition} :
    d ∈ newClasses b b' ↔ d ∈ b'.classes ∧ d.name ∉ b.classes.map Definition.name := by
  unfold newClasses
  rw [List.mem_filter, Bool.not_eq_true', ← Bool.not_eq_true, List.contains_iff_mem]

theorem nodup_append_newClasses {b b' : GraphBuilder} (h : b.classes.Nodup) (h' : b'.classes.Nodup) :
    (b.classes ++ newClasses b b').Nodup := by
  refine List.nodup_append.mpr ⟨h, h'.filter _, ?_⟩
  rintro c hc d hd rfl
  exact (mem_newClasses.mp hd).2 (List.mem_map.mpr ⟨c, hc, rfl⟩)

section

variable {definitions more : List Definition}
  (hlater : ∀ d ∈ definitions, ∀ c ∈ more, d.provenance.precedes c.provenance)

include hlater

/-- What counts among the earlier definitions counts among all. -/
theorem Authoritative.append {d : Definition} (h : Authoritative definitions d) :
    Authoritative (definitions ++ more) d where
  mem := List.mem_append_left more h.mem
  first := by
    intro c hc hname
    rcases List.mem_append.mp hc with hc | hc
    · exact h.first c hc hname
    · exact Provenance.precedes_asymm (hlater d h.mem c hc)

omit hlater in
theorem Authoritative.of_append {d : Definition} (h : Authoritative (definitions ++ more) d)
    (hd : d ∈ definitions) : Authoritative definitions d where
  mem := hd
  first := fun c hc => h.first c (List.mem_append_left more hc)

variable (hdistinct : ((definitions ++ more).map Definition.arrival).Nodup)
  {b b' : GraphBuilder} (h : Holds b.slots definitions) (h' : Holds b'.slots (definitions ++ more))

include hdistinct h h'

omit hlater in
theorem mem_more_of_mem_newClasses {d : Definition} (hd : d ∈ newClasses b b') : d ∈ more := by
  obtain ⟨hclass, hname⟩ := mem_newClasses.mp hd
  have hcounts := (mem_classes_iff_authoritative h' hdistinct).mp hclass
  rcases List.mem_append.mp hcounts.mem with hmem | hmem
  · have hold := (mem_classes_iff_authoritative h (nodup_front hdistinct)).mpr (hcounts.of_append hmem)
    exact absurd (List.mem_map.mpr ⟨d, hold, rfl⟩) hname
  · exact hmem

theorem mem_classes_append {d : Definition} :
    d ∈ b'.classes ↔ d ∈ b.classes ++ newClasses b b' := by
  have hold := fun c => mem_classes_iff_authoritative h (nodup_front hdistinct) (d := c)
  have hall := fun c => mem_classes_iff_authoritative h' hdistinct (d := c)
  rw [List.mem_append, mem_newClasses]
  constructor
  · intro hd
    by_cases hname : d.name ∈ b.classes.map Definition.name
    · -- the class that has the name already counts among all, so it is the same one
      obtain ⟨c, hc, heq⟩ := List.mem_map.mp hname
      have hsame := (((hold c).mp hc).append hlater).unique hdistinct ((hall d).mp hd) heq
      exact Or.inl (hsame ▸ hc)
    · exact Or.inr ⟨hd, hname⟩
  · rintro (hd | ⟨hd, _⟩)
    · exact (hall d).mpr (((hold d).mp hd).append hlater)
    · exact hd

/-- The classes of the larger collection are those of the smaller one and behind them new ones. -/
theorem classes_append : b'.classes = b.classes ++ newClasses b b' := by
  have hnodup : b.classes.Nodup := List.Nodup.of_map _ (nodup_classes h)
  have hnodup' : b'.classes.Nodup := List.Nodup.of_map _ (nodup_classes h')
  have hmem : ∀ {d}, d ∈ b'.classes → d ∈ definitions ++ more := fun hd =>
    ((mem_classes_iff_authoritative h' hdistinct).mp hd).mem
  apply eq_of_perm_of_arrivesInOrder Definition.provenance
  · refine (List.perm_ext_iff_of_nodup hnodup' (nodup_append_newClasses hnodup hnodup')).mpr ?_
    intro d
    exact mem_classes_append hlater hdistinct h h'
  · intro c hc d hd heq
    exact List.inj_on_of_nodup_map hdistinct (hmem hc) (hmem hd) heq
  · exact pairwise_classes b'
  · refine List.pairwise_append.mpr ⟨pairwise_classes b, (pairwise_classes b').filter _, ?_⟩
    intro c hc d hd
    have hearly := ((mem_classes_iff_authoritative h (nodup_front hdistinct)).mp hc).mem
    have hprecedes := hlater c hearly d (mem_more_of_mem_newClasses hdistinct h h' hd)
    simp [arrivesInOrder, Provenance.precedes_asymm hprecedes]

end

/-! ## The edges -/

/-- Of the edges that lead to no supertype those stay whose target was scanned. -/
theorem filter_edges_nodeOf (split : List (String × List String) → List (List String))
    (b : GraphBuilder) (d : Definition) :
    ((nodeOf split b d).edges.filter fun e => !e.kind.isHierarchy) =
      (d.record.edges.filter fun e => !e.kind.isHierarchy).filter fun e =>
        (b.classes.map Definition.name).contains e.target := by
  unfold nodeOf
  rw [List.filter_filter, List.filter_filter]
  refine List.filter_congr fun e _ => ?_
  cases e.kind.isHierarchy <;> simp

/-- Definitions that arrive behind all others change little. Whatever the order in which the
definitions are recorded, the classes of the graph are the front of the larger graph, each
with its record, its provenance and its position, and the new ones are of new names. The edges
of a class that lead to no supertype stay in their order, and no edge is left dangling that
was not. -/
theorem definitions_at_the_end_leave_the_front_as_it_was
    (split : List (String × List String) → List (List String)) {definitions more : List Definition}
    (hdistinct : ((definitions ++ more).map Definition.arrival).Nodup)
    (hlater : ∀ d ∈ definitions, ∀ c ∈ more, d.provenance.precedes c.provenance)
    {recorded recorded' : List Definition} (hrecorded : recorded.Perm definitions)
    (hrecorded' : recorded'.Perm (definitions ++ more)) {b b' : GraphBuilder}
    (hwalk : b.slots.Perm (empty.recordAll recorded).slots)
    (hwalk' : b'.slots.Perm (empty.recordAll recorded').slots) :
    let g := (b.finishWith split).1
    let g' := (b'.finishWith split).1
    (∃ new, g'.nodes.map ClassNode.definition = g.nodes.map ClassNode.definition ++ new ∧
      ∀ d ∈ new, d ∈ more ∧ d.name ∉ g.nodes.map ClassNode.name) ∧
    (∀ name i, g.position? name = some i → g'.position? name = some i) ∧
    ∀ (i : Nat) (n : ClassNode), g.nodes[i]? = some n → ∃ n' : ClassNode,
      g'.nodes[i]? = some n' ∧ n'.definition = n.definition ∧
      (n.edges.filter fun e => !e.kind.isHierarchy).Sublist
        (n'.edges.filter fun e => !e.kind.isHierarchy) ∧
      (g'.danglingOf n.name).Sublist (g.danglingOf n.name) := by
  intro g g'
  have h : Holds b.slots definitions := (holds_walk hwalk).perm (List.Perm.refl _) hrecorded
  have h' : Holds b'.slots (definitions ++ more) :=
    (holds_walk hwalk').perm (List.Perm.refl _) hrecorded'
  have hclasses : b'.classes = b.classes ++ newClasses b b' := classes_append hlater hdistinct h h'
  have hdefinitions : g'.nodes.map ClassNode.definition =
      g.nodes.map ClassNode.definition ++ newClasses b b' := by
    rw [map_definition_nodes, map_definition_nodes, hclasses]
  have hscanned : ∀ e : Edge, (b.classes.map Definition.name).contains e.target →
      (b'.classes.map Definition.name).contains e.target := by
    intro e he
    rw [hclasses, List.map_append, List.contains_iff_mem]
    exact List.mem_append_left _ (List.contains_iff_mem.mp he)
  have hnode : ∀ (i : Nat) (n : ClassNode), g.nodes[i]? = some n → ∃ d ∈ b.classes, n = nodeOf split b d ∧
      g'.nodes[i]? = some (nodeOf split b' d) := by
    intro i n hn
    rw [nodes_finishWith h, List.getElem?_map, Option.map_eq_some_iff] at hn
    obtain ⟨d, hd, rfl⟩ := hn
    refine ⟨d, List.mem_of_getElem? hd, rfl, ?_⟩
    rw [nodes_finishWith h', hclasses, List.getElem?_map,
      List.getElem?_append_left (List.getElem?_eq_some_iff.mp hd).1, hd]
    rfl
  refine ⟨⟨newClasses b b', hdefinitions, fun d hd => ?_⟩, ?_, ?_⟩
  · rw [names_finishWith]
    exact ⟨mem_more_of_mem_newClasses hdistinct h h' hd, (mem_newClasses.mp hd).2⟩
  · intro name i hposition
    rw [ClassGraph.position?_eq_some_iff (nodup_names hwalk)] at hposition
    obtain ⟨n, hn, hname⟩ := hposition
    obtain ⟨d, _, rfl, hd⟩ := hnode i n hn
    rw [name_nodeOf] at hname
    exact (ClassGraph.position?_eq_some_iff (nodup_names hwalk')).mpr ⟨_, hd, hname⟩
  · intro i n hn
    obtain ⟨d, hd, rfl, hd'⟩ := hnode i n hn
    have hmem' : d ∈ b'.classes := by
      rw [hclasses]
      exact List.mem_append_left _ hd
    refine ⟨nodeOf split b' d, hd', ?_, ?_, ?_⟩
    · rw [definition_nodeOf, definition_nodeOf]
    · rw [filter_edges_nodeOf, filter_edges_nodeOf]
      exact List.monotone_filter_right _ hscanned
    · rw [name_nodeOf, danglingOf_eq hwalk hd, danglingOf_eq hwalk' hmem']
      refine List.monotone_filter_right _ fun e he => ?_
      rw [Bool.not_eq_true', ← Bool.not_eq_true] at he ⊢
      exact mt (hscanned e) he

/-- A hen that comes late is found by her egg, and they turn out to lie on a cycle. -/
theorem a_late_hen_leaves_egg_and_chick_in_place :
    let definitions := [Definition.plain "a.Egg" (some "a.Hen") 0 0, .plain "a.Chick" (some "a.Egg") 0 1]
    let more := [Definition.plain "a.Hen" (some "a.Chick") 1 0, .plain "a.Egg" none 1 1]
    let b := empty.recordAll definitions
    let b' := empty.recordAll (definitions ++ more).reverse
    let g := (b.finishWith Hierarchy.components).1
    let g' := (b'.finishWith Hierarchy.components).1
    ((definitions ++ more).map Definition.arrival).Nodup ∧
      (∀ d ∈ definitions, ∀ c ∈ more, d.provenance.precedes c.provenance) ∧
      definitions.Perm definitions ∧ (definitions ++ more).reverse.Perm (definitions ++ more) ∧
      (∃ new, g'.nodes.map ClassNode.definition = g.nodes.map ClassNode.definition ++ new ∧
        ∀ d ∈ new, d ∈ more ∧ d.name ∉ g.nodes.map ClassNode.name) ∧
      ∀ name i, g.position? name = some i → g'.position? name = some i := by
  intro definitions more b b' g g'
  have hdistinct : ((definitions ++ more).map Definition.arrival).Nodup := by decide
  have hlater : ∀ d ∈ definitions, ∀ c ∈ more, d.provenance.precedes c.provenance := by
    simp [definitions, more, Definition.plain, Provenance.precedes]
  have hreverse : (definitions ++ more).reverse.Perm (definitions ++ more) := List.reverse_perm _
  obtain ⟨hnew, hposition, _⟩ := definitions_at_the_end_leave_the_front_as_it_was
    Hierarchy.components hdistinct hlater (List.Perm.refl definitions) hreverse
    (List.Perm.refl b.slots) (List.Perm.refl b'.slots)
  exact ⟨hdistinct, hlater, List.Perm.refl _, hreverse, hnew, hposition⟩

end ClassAtlas.GraphBuilder
