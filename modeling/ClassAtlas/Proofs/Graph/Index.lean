-- The laws of the index and of the lists that are read off it: a name stands there with the
-- positions of the classes that answer for it, and classes at some positions come in the order of
-- arrival, each of them once.
import ClassAtlas.Graph.Query
import ClassAtlas.Proofs.Graph.Frozen

namespace ClassAtlas

/-! ## Names and positions -/

namespace QueryIndex

theorem mem_lookUp {list : List (String × Nat)} {name : String} {i : Nat} :
    i ∈ lookUp list name ↔ (name, i) ∈ list := by
  simp [lookUp, List.mem_filterMap]

theorem mem_postings {names : ClassNode → List String} {nodes : List ClassNode} {name : String}
    {i : Nat} : (name, i) ∈ postings names nodes ↔ ∃ n, nodes[i]? = some n ∧ name ∈ names n := by
  simp only [postings, List.mem_flatMap, List.mem_map, Prod.exists, List.mem_zipIdx_iff_getElem?,
    Prod.mk.injEq]
  constructor
  · rintro ⟨n, _, hn, _, hname, rfl, rfl⟩
    exact ⟨n, hn, hname⟩
  · rintro ⟨n, hn, hname⟩
    exact ⟨n, i, hn, name, hname, rfl, rfl⟩

/-- A supertype stands in the index for each edge to it, whether it was scanned or not. -/
theorem mem_supertypes {kind : EdgeKind} {g : ClassGraph} {name : String} {i : Nat} :
    (name, i) ∈ supertypes kind g ↔
      (∃ n, g.nodes[i]? = some n ∧ ∃ e ∈ n.edges, e.kind = kind ∧ e.target = name) ∨
        ∃ d ∈ g.dangling, g.position? d.source = some i ∧ d.edge.kind = kind ∧
          d.edge.target = name := by
  unfold supertypes
  rw [List.mem_append, mem_postings, List.mem_filterMap]
  refine or_congr ?_ ?_
  · simp only [List.mem_map, List.mem_filter, decide_eq_true_eq, and_assoc]
  · refine exists_congr fun d => and_congr_right fun _ => ?_
    by_cases hkind : d.edge.kind = kind
    · rw [if_pos hkind, Option.map_eq_some_iff]
      constructor
      · rintro ⟨j, hj, heq⟩
        cases heq
        exact ⟨hj, hkind, rfl⟩
      · rintro ⟨hi, _, rfl⟩
        exact ⟨i, hi, rfl⟩
    · simp [hkind]

end QueryIndex

/-! ## Lists of classes -/

namespace ClassGraph

variable {g : ClassGraph}

theorem mem_namesAt {positions : List Nat} {name : String} :
    name ∈ g.namesAt positions ↔ ∃ i ∈ positions, ∃ n, g.nodes[i]? = some n ∧ n.name = name := by
  unfold namesAt
  simp only [List.mem_filterMap, Option.map_eq_some_iff]

theorem namesAt_subset (positions : List Nat) :
    g.namesAt positions ⊆ g.nodes.map ClassNode.name := by
  intro name hname
  obtain ⟨i, _, n, hn, rfl⟩ := mem_namesAt.mp hname
  exact List.mem_map.mpr ⟨n, List.mem_of_getElem? hn, rfl⟩

theorem nodesAt_eq (g : ClassGraph) (positions : List Nat) : g.nodesAt positions =
    (g.nodes.zipIdx.filter fun x => positions.contains x.2).map Prod.fst := by
  unfold nodesAt
  induction g.nodes.zipIdx with
  | nil => rfl
  | cons x rest ih => by_cases hx : x.2 ∈ positions <;> simp_all

theorem mem_nodesAt {positions : List Nat} {n : ClassNode} :
    n ∈ g.nodesAt positions ↔ ∃ i ∈ positions, g.nodes[i]? = some n := by
  rw [nodesAt_eq]
  simp [List.mem_zipIdx_iff_getElem?, and_comm]

theorem sublist_nodesAt (positions : List Nat) : (g.nodesAt positions).Sublist g.nodes := by
  have hsublist : ((g.nodes.zipIdx.filter fun x => positions.contains x.2).map Prod.fst).Sublist
      (g.nodes.zipIdx.map Prod.fst) := List.filter_sublist.map Prod.fst
  rw [nodesAt_eq]
  rwa [List.zipIdx_map_fst] at hsublist

theorem mem_nodesAmong {names : List String} {n : ClassNode} :
    n ∈ g.nodesAmong names ↔ n ∈ g.nodes ∧ n.name ∈ names := by
  unfold nodesAmong
  rw [List.mem_filter, List.contains_iff_mem]

theorem sublist_nodesAmong (names : List String) : (g.nodesAmong names).Sublist g.nodes :=
  List.filter_sublist

/-- The classes that a search from a name finds. -/
theorem mem_nodesAmong_reached {next : String → List String}
    (hall : ∀ x, next x ⊆ g.nodes.map ClassNode.name) {name : String} {n : ClassNode} :
    n ∈ g.nodesAmong (Search.reached next g.nodes.length [name] [name]) ↔
      n ∈ g.nodes ∧ n.name ≠ name ∧ Relation.TransGen (Search.Leads next) name n.name := by
  rw [mem_nodesAmong, Search.mem_reached hall (List.length_map _) (List.Subset.refl [name])]
  simp only [List.mem_singleton, exists_eq_left]

/-- Some classes of a graph in the order of their arrival, each of them once. -/
structure InArrivalOrder (g : ClassGraph) (found : List ClassNode) : Prop where
  sublist : found.Sublist g.nodes
  nodup : (found.map ClassNode.name).Nodup
  ordered : found.Pairwise fun m n => n.provenance.precedes m.provenance = false

end ClassGraph

/-- In a finished graph the classes stand in the order of their arrival, and so do those of them
that are picked in that order. -/
theorem GraphBuilder.inArrivalOrder {split : List (String × List String) → List (List String)}
    {b : GraphBuilder} {definitions : List Definition}
    (hwalk : b.slots.Perm (empty.recordAll definitions).slots) {found : List ClassNode}
    (h : found.Sublist (b.finishWith split).1.nodes) :
    (b.finishWith split).1.InArrivalOrder found where
  sublist := h
  nodup := (nodup_names hwalk).sublist (h.map ClassNode.name)
  ordered := pairwise_nodes.sublist h

end ClassAtlas
