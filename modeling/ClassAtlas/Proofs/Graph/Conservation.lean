-- No definition is lost on the way into the graph and no edge on the way out of a record.
-- A definition ends as a class or as a shadow; an edge stays, is left dangling or is cut.
import ClassAtlas.Proofs.Graph.Frozen
import ClassAtlas.Proofs.Graph.Replacement

namespace ClassAtlas

open Relation (ReflTransGen)

/-! ## Sharing out the edges of a record -/

/-- Three lists share some edges: each edge is in one of them, as often as among the edges, and
each of the lists keeps their order. -/
structure Shared (edges kept dangling cut : List Edge) : Prop where
  all : (kept ++ dangling ++ cut).Perm edges
  kept_order : kept.Sublist edges
  dangling_order : dangling.Sublist edges
  cut_order : cut.Sublist edges

theorem shared_filter (edges : List Edge) (scanned cyclic : Edge → Bool) :
    Shared edges (edges.filter fun e => scanned e && !cyclic e) (edges.filter fun e => !scanned e)
      (edges.filter fun e => scanned e && cyclic e) where
  all := by
    have hscanned : ((edges.filter fun e => scanned e && !cyclic e) ++
        edges.filter fun e => scanned e && cyclic e).Perm (edges.filter scanned) := by
      have hsplit := List.filter_append_perm cyclic (edges.filter scanned)
      rw [List.filter_filter, List.filter_filter] at hsplit
      simp only [Bool.and_comm] at hsplit ⊢
      exact List.perm_append_comm.trans hsplit
    refine List.Perm.trans ?_ (List.filter_append_perm scanned edges)
    refine List.Perm.trans ?_ (hscanned.append_right (edges.filter fun e => !scanned e))
    rw [List.append_assoc, List.append_assoc]
    exact List.perm_append_comm.append_left _
  kept_order := List.filter_sublist
  dangling_order := List.filter_sublist
  cut_order := List.filter_sublist

namespace GraphBuilder

open Hierarchy (FindsComponents)

theorem filter_source_flatMap {classes : List Definition} (edges : Definition → List Edge)
    (hnames : (classes.map Definition.name).Nodup) {d : Definition} (hd : d ∈ classes) :
    ((classes.flatMap fun c => (edges c).map fun e => (⟨c.name, e⟩ : DanglingEdge)).filter
      fun x => x.source = d.name).map DanglingEdge.edge = edges d := by
  have hother : ∀ rest : List Definition, d.name ∉ rest.map Definition.name →
      ((rest.flatMap fun c => (edges c).map fun e => (⟨c.name, e⟩ : DanglingEdge)).filter
        fun x => x.source = d.name) = [] := by
    intro rest hrest
    rw [List.filter_eq_nil_iff]
    intro x hx
    obtain ⟨c, hc, hx⟩ := List.mem_flatMap.mp hx
    obtain ⟨e, _, rfl⟩ := List.mem_map.mp hx
    intro hsource
    exact hrest (List.mem_map.mpr ⟨c, hc, by simpa using hsource⟩)
  obtain ⟨front, back, rfl⟩ := List.append_of_mem hd
  simp only [List.map_append, List.map_cons, List.nodup_append, List.nodup_cons] at hnames
  obtain ⟨_, ⟨hback, _⟩, hfront⟩ := hnames
  have hfront' : d.name ∉ front.map Definition.name := fun h => hfront _ h _ (by simp) rfl
  rw [List.flatMap_append, List.flatMap_cons, List.filter_append, List.filter_append,
    hother front hfront', hother back hback, List.filter_map]
  simp [Function.comp_def]

section

variable {split : List (String × List String) → List (List String)} {b : GraphBuilder}
  {definitions : List Definition} (hwalk : b.slots.Perm (empty.recordAll definitions).slots)

include hwalk

theorem danglingOf_eq {d : Definition} (hd : d ∈ b.classes) :
    (b.finishWith split).1.danglingOf d.name =
      d.record.edges.filter fun e => !(b.classes.map Definition.name).contains e.target := by
  unfold ClassGraph.danglingOf
  rw [dangling_finishWith (holds_walk hwalk)]
  exact filter_source_flatMap (fun c => c.record.edges.filter fun e =>
    !(b.classes.map Definition.name).contains e.target) (nodup_classes (holds_walk hwalk)) hd

theorem source_mem_names {x : DanglingEdge} (hx : x ∈ (b.finishWith split).1.dangling) :
    x.source ∈ (b.finishWith split).1.nodes.map ClassNode.name := by
  rw [dangling_finishWith (holds_walk hwalk)] at hx
  obtain ⟨d, hd, hx⟩ := List.mem_flatMap.mp hx
  obtain ⟨e, _, rfl⟩ := List.mem_map.mp hx
  rw [names_finishWith]
  exact List.mem_map.mpr ⟨d, hd, rfl⟩

/-- What stays, what dangles and what is cut share the edges of a class. -/
theorem exists_cut (hsplit : FindsComponents split) {n : ClassNode}
    (hn : n ∈ (b.finishWith split).1.nodes) :
    ∃ cut, Shared n.record.edges n.edges ((b.finishWith split).1.danglingOf n.name) cut ∧
      (∀ e ∈ (b.finishWith split).1.danglingOf n.name,
        e.target ∉ (b.finishWith split).1.nodes.map ClassNode.name) ∧
      ∀ e ∈ cut, e.target ∈ (b.finishWith split).1.nodes.map ClassNode.name ∧ e.kind.isHierarchy ∧
        ReflTransGen (b.finishWith split).1.Declares e.target n.name := by
  have hkept := fun e => mem_edges_finishWith (holds_walk hwalk) hsplit hn (e := e)
  rw [nodes_finishWith (holds_walk hwalk)] at hn
  obtain ⟨d, hd, rfl⟩ := List.mem_map.mp hn
  let scanned := fun e : Edge => (b.classes.map Definition.name).contains e.target
  let cyclic := fun e : Edge => e.kind.isHierarchy &&
    Hierarchy.sameCycle (Hierarchy.cycles split (Hierarchy.table b.pending)) d.name e.target
  have hscanned : ∀ e, scanned e = true ↔
      e.target ∈ (b.finishWith split).1.nodes.map ClassNode.name := by
    intro e
    rw [names_finishWith]
    exact List.contains_iff_mem
  have hdangling : (b.finishWith split).1.danglingOf (nodeOf split b d).name =
      d.record.edges.filter fun e => !scanned e := danglingOf_eq hwalk hd
  refine ⟨d.record.edges.filter fun e => scanned e && cyclic e, ?_, ?_, ?_⟩
  · rw [hdangling]
    exact shared_filter d.record.edges scanned cyclic
  · intro e he
    rw [hdangling] at he
    rw [← hscanned e, Bool.not_eq_true]
    simpa using (List.mem_filter.mp he).2
  · intro e he
    obtain ⟨hedge, hcut⟩ := List.mem_filter.mp he
    obtain ⟨htarget, hcyclic⟩ := Bool.and_eq_true_iff.mp hcut
    have hgone : e ∉ (nodeOf split b d).edges := by
      intro hmem
      have hnot : (!cyclic e) = true := (Bool.and_eq_true_iff.mp (List.mem_filter.mp hmem).2).2
      simp [hcyclic] at hnot
    have hback := fun hnot => hgone ((hkept e).mpr ⟨hedge, (hscanned e).mp htarget, hnot⟩)
    exact ⟨(hscanned e).mp htarget, not_not.mp hback⟩

end

/-! ## The whole run -/

/-- For all definitions in the order of their recording, and for each walk over the recorded
slots: the outcome of each call is the only one whose meaning holds; each definition ends once,
as a class or as a shadow, and the classes are the winners; names are looked up where they stand;
all lists are in the order of arrival; each edge of a class stays, dangles or is cut; and another
content of a definition that loses changes nothing but its own shadow. -/
theorem no_definition_and_no_edge_is_lost
    {split : List (String × List String) → List (List String)} (hsplit : FindsComponents split)
    (definitions : List Definition) {b : GraphBuilder}
    (hwalk : b.slots.Perm (empty.recordAll definitions).slots) :
    let g := (b.finishWith split).1
    let names := g.nodes.map ClassNode.name
    (∀ earlier d later, definitions = earlier ++ d :: later →
      ∀ o, (empty.recordAll earlier).outcome d = o ↔ o.Means earlier d) ∧
    (g.nodes.map ClassNode.definition ++ g.shadowed.map ShadowedDefinition.definition).Perm
      definitions ∧
    (∀ d, d ∈ g.nodes.map ClassNode.definition ↔ Counts definitions d) ∧
    (∀ s ∈ g.shadowed, ∃ n ∈ g.nodes, n.name = s.definition.name ∧ n.provenance = s.authoritative) ∧
    names.Nodup ∧
    (∀ name i, g.position? name = some i ↔ ∃ n, g.nodes[i]? = some n ∧ n.name = name) ∧
    g.nodes.Pairwise (fun m n => n.provenance.precedes m.provenance = false) ∧
    g.shadowed.Pairwise
      (fun s t => t.definition.provenance.precedes s.definition.provenance = false) ∧
    (∀ n ∈ g.nodes, ∃ cut, Shared n.record.edges n.edges (g.danglingOf n.name) cut ∧
      (∀ e ∈ n.edges, e.target ∈ names ∧
        ¬ (e.kind.isHierarchy ∧ ReflTransGen g.Declares e.target n.name)) ∧
      (∀ e ∈ g.danglingOf n.name, e.target ∉ names) ∧
      ∀ e ∈ cut, e.target ∈ names ∧ e.kind.isHierarchy ∧
        ReflTransGen g.Declares e.target n.name) ∧
    (∀ x ∈ g.dangling, x.source ∈ names) ∧
    (g.edgeCount = (g.nodes.map fun n => n.edges.length).sum ∧ g.placedEdges.length = g.edgeCount ∧
      g.links = g.placedEdges) ∧
    ∀ before d d' after, definitions = before ++ d :: after → ¬ Wins before d after →
      d'.name = d.name → d'.provenance = d.provenance →
      ∀ b' : GraphBuilder, b'.slots.Perm (empty.recordAll (before ++ d' :: after)).slots →
        b.slots.map Slot.name = b'.slots.map Slot.name →
        (b'.finishWith split).1.nodes = g.nodes ∧ (b'.finishWith split).1.links = g.links ∧
          (b'.finishWith split).1.dangling = g.dangling ∧
          (b'.finishWith split).2 = (b.finishWith split).2 ∧
          ∃ winner, Replaced (⟨d, winner⟩ : ShadowedDefinition) ⟨d', winner⟩
            g.shadowed (b'.finishWith split).1.shadowed := by
  intro g names
  have hnames : names.Nodup := nodup_names hwalk
  have hkept := fun n (hn : n ∈ g.nodes) e =>
    mem_edges_finishWith (holds_walk hwalk) hsplit hn (e := e)
  refine ⟨?_, perm_definitions hwalk, ?_, fun s hs => exists_node_of_shadowed hwalk hs, hnames,
    fun name i => ClassGraph.position?_eq_some_iff hnames, pairwise_nodes, pairwise_shadowed b, ?_,
    fun x hx => source_mem_names hwalk hx, ⟨edgeCount_finishWith, ?_, links_finishWith⟩, ?_⟩
  · exact fun earlier d later _ o => outcome_eq_iff earlier d o
  · intro d
    rw [map_definition_nodes]
    exact mem_classes_iff hwalk
  · intro n hn
    obtain ⟨cut, hshared, hdangling, hcut⟩ := exists_cut hwalk hsplit hn
    exact ⟨cut, hshared, fun e he => ((hkept n hn e).mp he).2, hdangling, hcut⟩
  · rw [← links_finishWith]
    rfl
  · rintro before d d' after rfl hloses hname hprovenance b' hwalk' horder
    have hslots := slotsExchanged_run hname hprovenance before after
    have hexchanged := slotsExchanged_walk hname hslots (holds_run _).names hwalk hwalk' horder
    exact finishWith_exchanged hprovenance split hexchanged hloses

/-- Of three definitions of one name the first at the least place counts, though it came second. -/
theorem an_early_egg_displaces_a_late_one :
    FindsComponents Hierarchy.components ∧
      let definitions := [Definition.plain "a.Egg" (some "a.Hen") 0 1,
        .plain "a.Egg" (some "a.Egg") 0 0, .plain "a.Egg" none 0 0, .plain "a.Hen" (some "a.Bird") 0 2]
      let b := empty.recordAll definitions
      let g := (b.finishWith Hierarchy.components).1
      b.slots.Perm (empty.recordAll definitions).slots ∧
        (g.nodes.map ClassNode.definition ++
          g.shadowed.map ShadowedDefinition.definition).Perm definitions ∧
        (∀ d, d ∈ g.nodes.map ClassNode.definition ↔ Counts definitions d) ∧
        g.edgeCount = (g.nodes.map fun n => n.edges.length).sum ∧ g.links = g.placedEdges := by
  refine ⟨Hierarchy.components_findsComponents, ?_⟩
  intro definitions b g
  obtain ⟨_, hall, hcounts, _, _, _, _, _, _, _, ⟨hcount, _, hlinks⟩, _⟩ :=
    no_definition_and_no_edge_is_lost Hierarchy.components_findsComponents definitions
      (List.Perm.refl b.slots)
  exact ⟨List.Perm.refl _, hall, hcounts, hcount, hlinks⟩

end GraphBuilder

end ClassAtlas
