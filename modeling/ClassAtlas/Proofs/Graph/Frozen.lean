-- The finished graph as a table: its classes are the winners of the run, each name stands
-- once, and what was shadowed or left dangling belongs to one of the classes.
import Mathlib.Algebra.GroupWithZero.Nat
import ClassAtlas.Proofs.Graph.Cycles
import ClassAtlas.Proofs.Graph.Outcomes

namespace ClassAtlas

/-! ## Look-up by name -/

/-- The definition that a class of the graph was made of. -/
def ClassNode.definition (n : ClassNode) : Definition := ⟨n.record, n.provenance⟩

namespace ClassGraph

/-- The edges of a class whose targets were not scanned. -/
def danglingOf (g : ClassGraph) (name : String) : List Edge :=
  (g.dangling.filter fun x => x.source = name).map DanglingEdge.edge

/-- The edges of the classes with the positions of their sources and of their targets. -/
def placedEdges (g : ClassGraph) : List (Nat × Nat × Edge) :=
  g.nodes.zipIdx.flatMap fun (n, i) =>
    n.edges.filterMap fun e => (g.position? e.target).map fun j => (i, j, e)

variable {g : ClassGraph} (h : (g.nodes.map ClassNode.name).Nodup)

include h

theorem get?_eq_some_iff {name : String} {n : ClassNode} :
    g.get? name = some n ↔ n ∈ g.nodes ∧ n.name = name := by
  unfold get?
  constructor
  · intro hfind
    exact ⟨List.mem_of_find?_eq_some hfind, by simpa using List.find?_some hfind⟩
  · rintro ⟨hn, hname⟩
    cases hfind : g.nodes.find? fun m => m.name = name with
    | none => exact absurd hname (by simpa using List.find?_eq_none.mp hfind n hn)
    | some m =>
      have hm : m.name = name := by simpa using List.find?_some hfind
      have heq := List.inj_on_of_nodup_map h (List.mem_of_find?_eq_some hfind) hn (hm.trans hname.symm)
      rw [heq]

theorem position?_eq_some_iff {name : String} {i : Nat} :
    g.position? name = some i ↔ ∃ n, g.nodes[i]? = some n ∧ n.name = name := by
  unfold position?
  rw [List.findIdx?_eq_some_iff_getElem]
  constructor
  · rintro ⟨hi, hname, _⟩
    exact ⟨g.nodes[i], List.getElem?_eq_getElem hi, by simpa using hname⟩
  · rintro ⟨n, hn, hname⟩
    obtain ⟨hi, rfl⟩ := List.getElem?_eq_some_iff.mp hn
    refine ⟨hi, by simpa using hname, ?_⟩
    intro j hj hjname
    have hi' : i < (g.nodes.map ClassNode.name).length := by simpa using hi
    have hsame : (g.nodes.map ClassNode.name)[i]? = (g.nodes.map ClassNode.name)[j]? := by
      rw [List.getElem?_map, List.getElem?_map, List.getElem?_eq_getElem hi,
        List.getElem?_eq_getElem (Nat.lt_trans hj hi)]
      simpa [hname] using Eq.symm (by simpa using hjname)
    have hij := (List.getElem?_inj hi' h).mp hsame
    omega

end ClassGraph

/-! ## The finished graph -/

namespace GraphBuilder

theorem pairwise_mergeSort {α : Type} (provenance : α → Provenance) (items : List α) :
    (items.mergeSort fun a b => arrivesInOrder (provenance a) (provenance b)).Pairwise
      fun a b => (provenance b).precedes (provenance a) = false := by
  have hordered : (items.mergeSort fun a b => arrivesInOrder (provenance a) (provenance b)).Pairwise
      fun a b => arrivesInOrder (provenance a) (provenance b) := by
    apply List.pairwise_mergeSort
    · exact fun a b c => arrivesInOrder_trans (provenance a) (provenance b) (provenance c)
    · exact fun a b => arrivesInOrder_total (provenance a) (provenance b)
  exact hordered.imp fun hle => by simpa [arrivesInOrder] using hle

section

variable {split : List (String × List String) → List (List String)} {b : GraphBuilder}
  {definitions : List Definition} (hwalk : b.slots.Perm (empty.recordAll definitions).slots)

theorem definition_nodeOf (d : Definition) : (nodeOf split b d).definition = d := rfl

theorem name_nodeOf (d : Definition) : (nodeOf split b d).name = d.name := rfl

theorem map_definition_nodes :
    (b.finishWith split).1.nodes.map ClassNode.definition = b.classes := by
  unfold finishWith classes
  rw [List.map_map]
  rfl

theorem pairwise_nodes : (b.finishWith split).1.nodes.Pairwise
    fun m n => n.provenance.precedes m.provenance = false := by
  have hordered : ((b.finishWith split).1.nodes.map ClassNode.definition).Pairwise
      fun c d => d.provenance.precedes c.provenance = false := by
    rw [map_definition_nodes, classes_eq_mergeSort]
    exact pairwise_mergeSort Definition.provenance _
  exact List.pairwise_map.mp hordered

/-- The position of a class is that of its name. -/
theorem position?_finishWith (name : String) : (b.finishWith split).1.position? name =
    (b.classes.map Definition.name).findIdx? fun other => other = name := by
  rw [← names_finishWith split b, List.findIdx?_map]
  rfl

/-- The second store of edges holds the edges of the classes, in their order. -/
theorem links_finishWith : (b.finishWith split).1.links = (b.finishWith split).1.placedEdges := by
  have hplaced : ∀ (p : Definition × List Edge) (i : Nat),
      (((keptOf split b p).map Prod.snd).filterMap fun e =>
        ((b.finishWith split).1.position? e.target).map fun j => (i, j, e)) =
          (keptOf split b p).map fun x => (i, x.1, x.2) := by
    intro p i
    rw [List.filterMap_map, ← List.filterMap_eq_map]
    refine List.filterMap_congr fun x hx => ?_
    rw [Function.comp_apply, position?_finishWith, findIdx?_of_mem_keptEdges hx]
    rfl
  unfold ClassGraph.placedEdges
  rw [links_eq_flatMap_pending, nodes_eq_map_pending, List.zipIdx_map, List.flatMap_map]
  exact List.flatMap_congr fun x _ => (hplaced x.1 x.2).symm

/-- The number of edges in the store is the number of edges of all classes. -/
theorem edgeCount_finishWith : (b.finishWith split).1.edgeCount =
    ((b.finishWith split).1.nodes.map fun n => n.edges.length).sum := by
  have hsizes : ∀ size : Definition × List Edge → Nat,
      b.pending.zipIdx.map (fun x => size x.1) = b.pending.map size := fun size =>
    List.map_map.symm.trans (congrArg (List.map size) (List.zipIdx_map_fst 0 b.pending))
  unfold ClassGraph.edgeCount
  rw [links_eq_flatMap_pending, nodes_eq_map_pending, List.length_flatMap, List.map_map]
  simp only [List.length_map, Function.comp_def]
  rw [hsizes fun p => (keptOf split b p).length]

theorem pairwise_shadowed (b : GraphBuilder) : b.shadowed.Pairwise
    fun s t => t.definition.provenance.precedes s.definition.provenance = false := by
  obtain ⟨slots, _, hsorted⟩ := shadowed_eq_mergeSort b
  rw [hsorted]
  exact pairwise_mergeSort (fun s : ShadowedDefinition => s.definition.provenance) _

theorem perm_shadowed (b : GraphBuilder) : b.shadowed.Perm (shadowList b.slots) := by
  obtain ⟨slots, hslots, hsorted⟩ := shadowed_eq_mergeSort b
  rw [hsorted]
  exact (List.mergeSort_perm _ _).trans (hslots.flatMap_right _)

theorem perm_split_slots (slots : List Slot) :
    (slots.map Slot.authoritative ++ slots.flatMap Slot.shadows).Perm
      (slots.flatMap Slot.definitions) := by
  induction slots with
  | nil => exact List.Perm.refl _
  | cons s rest ih =>
    have hmiddle : (rest.map Slot.authoritative ++ (s.shadows ++ rest.flatMap Slot.shadows)).Perm
        (s.shadows ++ rest.flatMap Slot.definitions) :=
      (List.perm_append_comm_assoc _ _ _).trans (ih.append_left s.shadows)
    exact hmiddle.cons s.authoritative

include hwalk

theorem holds_walk : Holds b.slots definitions :=
  (holds_run definitions).perm hwalk.symm (List.Perm.refl _)

theorem nodup_names : ((b.finishWith split).1.nodes.map ClassNode.name).Nodup := by
  rw [names_finishWith]
  exact nodup_classes (holds_walk hwalk)

/-- The classes are the winners. -/
theorem mem_classes_iff {d : Definition} : d ∈ b.classes ↔ Counts definitions d := by
  rw [(perm_classes b).mem_iff, (hwalk.map Slot.authoritative).mem_iff, mem_authoritative_iff]

theorem counts_node {n : ClassNode} (hn : n ∈ (b.finishWith split).1.nodes) :
    Counts definitions n.definition := by
  rw [← mem_classes_iff hwalk, ← map_definition_nodes]
  exact List.mem_map.mpr ⟨n, hn, rfl⟩

/-- Every name that was recorded has a class. -/
theorem mem_names_iff {name : String} :
    name ∈ (b.finishWith split).1.nodes.map ClassNode.name ↔ ∃ d ∈ definitions, d.name = name := by
  have h := holds_walk hwalk
  rw [names_finishWith, ((perm_classes b).map Definition.name).mem_iff, List.map_map]
  constructor
  · intro hname
    obtain ⟨s, hs, rfl⟩ := List.mem_map.mp hname
    exact ⟨s.authoritative, (h.authoritative hs).mem, rfl⟩
  · rintro ⟨d, hd, rfl⟩
    obtain ⟨s, hs, hds⟩ := h.mem_iff.mp hd
    exact List.mem_map.mpr ⟨s, hs, ((h.wellFormed s hs).name_eq hds).symm⟩

/-- No definition is lost and none is there twice. -/
theorem perm_definitions :
    ((b.finishWith split).1.nodes.map ClassNode.definition ++
      (b.finishWith split).1.shadowed.map ShadowedDefinition.definition).Perm definitions := by
  have hshadowed : (b.shadowed.map ShadowedDefinition.definition).Perm
      (b.slots.flatMap Slot.shadows) := by
    refine ((perm_shadowed b).map _).trans ?_
    simp [shadowList, List.map_flatMap, Function.comp_def]
  rw [map_definition_nodes]
  exact ((perm_classes b).append hshadowed).trans
    ((perm_split_slots b.slots).trans (holds_walk hwalk).all)

/-- A shadow tells where the class of its name comes from. -/
theorem exists_node_of_shadowed {s : ShadowedDefinition}
    (hs : s ∈ (b.finishWith split).1.shadowed) :
    ∃ n ∈ (b.finishWith split).1.nodes, n.name = s.definition.name ∧ n.provenance = s.authoritative := by
  obtain ⟨a, ⟨t, ht, rfl, hshadow⟩, hauthoritative⟩ := mem_shadowList.mp ((perm_shadowed b).mem_iff.mp hs)
  have hclass : t.authoritative ∈ b.classes :=
    (perm_classes b).mem_iff.mpr (List.mem_map.mpr ⟨t, ht, rfl⟩)
  rw [nodes_finishWith (holds_walk hwalk)]
  refine ⟨nodeOf split b t.authoritative, List.mem_map.mpr ⟨_, hclass, rfl⟩, ?_, hauthoritative.symm⟩
  exact (((holds_walk hwalk).wellFormed t ht).named _ hshadow).symm

end

end GraphBuilder

end ClassAtlas
