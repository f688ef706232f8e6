-- The ancestors of a class in a finished graph: all classes that its supertype edges lead to, each
-- of them once, and none before a class that is nearer.
import ClassAtlas.Proofs.Graph.Links
import ClassAtlas.Proofs.Graph.SearchOrder

namespace ClassAtlas

open Relation (TransGen)

/-! ## Searches in a graph with distinct names -/

namespace ClassGraph

variable {g : ClassGraph} (h : (g.nodes.map ClassNode.name).Nodup)

include h

theorem map_name_nodesNamed_of_subset {names : List String}
    (hnames : names ⊆ g.nodes.map ClassNode.name) :
    (g.nodesNamed names).map ClassNode.name = names := by
  rw [map_name_nodesNamed h, List.filter_eq_self]
  exact fun name hname => (contains_iff g name).mpr (hnames hname)

theorem targets_subset (select : EdgeKind → Bool) (name : String) :
    g.targets select name ⊆ g.nodes.map ClassNode.name := fun _ hc => ((mem_targets h).mp hc).2

theorem map_name_ancestors (name : String) : (g.ancestors name).map ClassNode.name =
    Search.reached (g.targets EdgeKind.isHierarchy) g.nodes.length [name] [name] := by
  exact map_name_nodesNamed_of_subset h (Search.reached_subset
    (targets_subset h EdgeKind.isHierarchy) (List.length_map _) (List.Subset.refl [name]))

theorem nodup_ancestors (name : String) : ((g.ancestors name).map ClassNode.name).Nodup := by
  rw [map_name_ancestors h]
  exact Search.nodup_reached (targets_subset h EdgeKind.isHierarchy) (List.length_map _) [name]
    (List.nodup_singleton name)

/-- The ancestors stand in the order of their distances. -/
theorem exists_distances_ancestors (name : String) : ∃ lengths : List Nat,
    List.Forall₂
      (fun n k => Search.Distance (Search.Leads (g.targets EdgeKind.isHierarchy)) name n.name k)
      (g.ancestors name) lengths ∧ lengths.Pairwise (· ≤ ·) := by
  have hordered := Search.pairwise_reached (targets_subset h EdgeKind.isHierarchy)
    (List.length_map _) name
  rw [← map_name_ancestors h] at hordered
  have hwalk : ∀ y ∈ (g.ancestors name).map ClassNode.name,
      ∃ k, Search.Walk (Search.Leads (g.targets EdgeKind.isHierarchy)) name k y := by
    intro y hy
    obtain ⟨n, hn, rfl⟩ := List.mem_map.mp hy
    exact Search.exists_walk ((mem_ancestors h).mp hn).2.2
  obtain ⟨lengths, hlengths, hsorted⟩ := Search.exists_distances hwalk hordered
  exact ⟨lengths, List.forall₂_map_left_iff.mp hlengths, hsorted⟩

end ClassGraph

/-! ## The finished graph -/

namespace GraphBuilder

open Hierarchy (FindsComponents)

/-- The search for ancestors goes along the supertype edges of the graph. -/
theorem leads_eq_keeps {split : List (String × List String) → List (List String)}
    (hsplit : FindsComponents split) {definitions : List Definition} {b : GraphBuilder}
    (hwalk : b.slots.Perm (empty.recordAll definitions).slots) :
    Search.Leads ((b.finishWith split).1.targets EdgeKind.isHierarchy) =
      (b.finishWith split).1.Keeps := by
  funext a c
  apply propext
  rw [ClassGraph.leads_targets (nodup_names hwalk), and_iff_left_iff_imp]
  rintro ⟨n, hn, _, e, he, _, rfl⟩
  exact ((mem_edges_finishWith (holds_walk hwalk) hsplit hn).mp he).2.1

/-- For all recorded definitions and every name: the ancestors are the classes to which one or
more supertype edges lead, each of them once; the class itself is none of them; and they stand in
the order of their distances. -/
theorem ancestors_come_nearest_first
    {split : List (String × List String) → List (List String)} (hsplit : FindsComponents split)
    (definitions : List Definition) {b : GraphBuilder}
    (hwalk : b.slots.Perm (empty.recordAll definitions).slots) (name : String) :
    let g := (b.finishWith split).1
    ((g.ancestors name).map ClassNode.name).Nodup ∧
      (∀ n, n ∈ g.ancestors name ↔ n ∈ g.nodes ∧ TransGen g.Keeps name n.name) ∧
      (∀ n ∈ g.ancestors name, n.name ≠ name) ∧
      ∃ lengths : List Nat,
        List.Forall₂ (fun n k => Search.Distance g.Keeps name n.name k) (g.ancestors name) lengths ∧
          lengths.Pairwise (· ≤ ·) := by
  intro g
  have hnames : (g.nodes.map ClassNode.name).Nodup := nodup_names hwalk
  have hkeeps : Search.Leads (g.targets EdgeKind.isHierarchy) = g.Keeps :=
    leads_eq_keeps hsplit hwalk
  have hmem : ∀ n, n ∈ g.ancestors name ↔
      n ∈ g.nodes ∧ n.name ≠ name ∧ TransGen g.Keeps name n.name := by
    intro n
    rw [ClassGraph.mem_ancestors hnames, hkeeps]
  have hdistances := ClassGraph.exists_distances_ancestors hnames name
  rw [hkeeps] at hdistances
  refine ⟨ClassGraph.nodup_ancestors hnames name, fun n => ?_, fun n hn => ((hmem n).mp hn).2.1,
    hdistances⟩
  rw [hmem n]
  refine and_congr_right fun _ => and_iff_right_of_imp fun habove heq => ?_
  rw [heq] at habove
  exact not_transGen_keeps (holds_walk hwalk) hsplit name habove

/-- A chick comes to the bird over its hen and over the small ones, and both are nearer. -/
theorem a_chick_comes_to_its_bird_last :
    let definitions := [Definition.plain "a.Bird" none 0 0, .plain "a.Small" (some "a.Bird") 0 1,
      .plain "a.Hen" (some "a.Bird") 0 2,
      (Definition.plain "a.Chick" (some "a.Hen") 0 3).implementing ["a.Small"]]
    let b := empty.recordAll definitions
    let g := (b.finishWith Hierarchy.components).1
    FindsComponents Hierarchy.components ∧ b.slots.Perm (empty.recordAll definitions).slots ∧
      (g.ancestors "a.Chick").map ClassNode.name = ["a.Hen", "a.Small", "a.Bird"] ∧
      ∃ lengths : List Nat,
        List.Forall₂ (fun n k => Search.Distance g.Keeps "a.Chick" n.name k) (g.ancestors "a.Chick")
          lengths ∧ lengths.Pairwise (· ≤ ·) := by
  intro definitions b g
  have hsorted : b.sortedSlots = b.slots := List.mergeSort_of_pairwise (by decide)
  have hnames : (g.ancestors "a.Chick").map ClassNode.name = ["a.Hen", "a.Small", "a.Bird"] := by
    unfold g finishWith pending
    simp only [hsorted]
    decide +kernel
  obtain ⟨_, _, _, hdistances⟩ := ancestors_come_nearest_first Hierarchy.components_findsComponents
    definitions (List.Perm.refl b.slots) "a.Chick"
  exact ⟨Hierarchy.components_findsComponents, List.Perm.refl _, hnames, hdistances⟩

end GraphBuilder

end ClassAtlas
