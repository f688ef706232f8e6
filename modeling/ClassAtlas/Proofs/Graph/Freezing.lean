-- What freezing a graph cuts and reports, told by the names in the recorded definitions. A class is
-- reported if the superclasses and interfaces that the records name lead from it back to it, and
-- a class loses those supertypes from which the records lead back to it.
import ClassAtlas.Proofs.Graph.Frozen
import ClassAtlas.Proofs.Graph.Mentions

namespace ClassAtlas

open Relation (TransGen ReflTransGen)

/-- The definition that counts for `a` names `b` as a supertype, and `b` was scanned. -/
def Extends (definitions : List Definition) (a b : String) : Prop :=
  ∃ d, Counts definitions d ∧ d.name = a ∧ d.record.NamesSupertype b ∧ ∃ c ∈ definitions, c.name = b

/-- Where no name stands twice and no definition names an interface, the superclasses count. -/
theorem extends_iff_superclass {definitions : List Definition}
    (hnames : (definitions.map Definition.name).Nodup)
    (hinterfaces : ∀ d ∈ definitions, d.record.interfaces = []) {a b : String} :
    Extends definitions a b ↔
      ∃ d ∈ definitions, d.name = a ∧ d.record.superclass = some b ∧ ∃ c ∈ definitions, c.name = b := by
  have hsupertype : ∀ d ∈ definitions, d.record.NamesSupertype b ↔ d.record.superclass = some b := by
    intro d hd
    unfold ClassRecord.NamesSupertype
    rw [hinterfaces d hd, or_iff_left List.not_mem_nil]
  constructor
  · rintro ⟨d, hd, hname, hb, hscanned⟩
    exact ⟨d, hd.mem, hname, (hsupertype d hd.mem).mp hb, hscanned⟩
  · rintro ⟨d, hd, hname, hb, hscanned⟩
    exact ⟨d, counts_of_mem hnames hd, hname, (hsupertype d hd).mpr hb, hscanned⟩

namespace GraphBuilder

open Hierarchy (FindsComponents)

section

variable {split : List (String × List String) → List (List String)} {b : GraphBuilder}
  {definitions : List Definition} (hwalk : b.slots.Perm (empty.recordAll definitions).slots)

include hwalk

theorem exists_node {d : Definition} (hd : Counts definitions d) :
    ∃ n ∈ (b.finishWith split).1.nodes, n.definition = d := by
  have hclass : d ∈ (b.finishWith split).1.nodes.map ClassNode.definition := by
    rw [map_definition_nodes]
    exact (mem_classes_iff hwalk).mpr hd
  exact List.mem_map.mp hclass

theorem declares_eq_extends : (b.finishWith split).1.Declares = Extends definitions := by
  funext a c
  apply propext
  unfold ClassGraph.Declares Extends
  rw [mem_names_iff hwalk]
  constructor
  · rintro ⟨n, hn, hname, hedge, hc⟩
    exact ⟨n.definition, counts_node hwalk hn, hname, ClassRecord.exists_hierarchy_edge_iff.mp hedge, hc⟩
  · rintro ⟨d, hd, hname, hsupertype, hc⟩
    obtain ⟨n, hn, rfl⟩ := exists_node hwalk hd
    exact ⟨n, hn, hname, ClassRecord.exists_hierarchy_edge_iff.mpr hsupertype, hc⟩

/-- A class keeps the supertypes that its record names and that were scanned, but for those from
which the records lead back to it. -/
theorem exists_supertype_edge_iff (hsplit : FindsComponents split) {n : ClassNode}
    (hn : n ∈ (b.finishWith split).1.nodes) {kind : EdgeKind} (hkind : kind.isHierarchy) {x : String} :
    (∃ e ∈ n.edges, e.kind = kind ∧ e.target = x) ↔
      x ∈ n.record.supertypes kind ∧ x ∈ (b.finishWith split).1.nodes.map ClassNode.name ∧
        ¬ ReflTransGen (Extends definitions) x n.name := by
  have hkept := fun {e : Edge} => mem_edges_finishWith (holds_walk hwalk) hsplit hn (e := e)
  rw [declares_eq_extends hwalk] at hkept
  constructor
  · rintro ⟨e, he, rfl, rfl⟩
    obtain ⟨hedge, htarget, hcut⟩ := hkept.mp he
    have hnamed := (ClassRecord.exists_edge_of_kind_iff hkind).mp ⟨e, hedge, rfl, rfl⟩
    exact ⟨hnamed, htarget, fun hback => hcut ⟨hkind, hback⟩⟩
  · rintro ⟨hnamed, htarget, hcut⟩
    obtain ⟨e, hedge, rfl, rfl⟩ := (ClassRecord.exists_edge_of_kind_iff hkind).mpr hnamed
    exact ⟨e, hkept.mpr ⟨hedge, htarget, fun hback => hcut hback.2⟩, rfl, rfl⟩

end

/-- For all recorded definitions: no class of the graph is its own ancestor; each class that
was its own ancestor is reported once, in the order of arrival; and of the edges to scanned
classes those are gone that lead to a supertype from which their source can be reached. By the
recorded names, a class is reported if its supertypes lead back to it, and of the superclass and
the interfaces that were scanned it loses those that lead back to it. -/
theorem freezing_cuts_exactly_the_cycles
    {split : List (String × List String) → List (List String)} (hsplit : FindsComponents split)
    (definitions : List Definition) :
    let frozen := (empty.recordAll definitions).finishWith split
    let g := frozen.1
    (∀ n ∈ g.nodes, Authoritative definitions ⟨n.record, n.provenance⟩) ∧
      (∀ d ∈ definitions, d.name ∈ g.nodes.map ClassNode.name) ∧
      (∀ name, ¬ TransGen g.Keeps name name) ∧
      (∃ cyclic : List ClassNode, cyclic.Sublist g.nodes ∧
        (cyclic.map ClassNode.name).Nodup ∧
        cyclic.Pairwise (fun m n => n.provenance.precedes m.provenance = false) ∧
        frozen.2 = cyclic.map (fun n => Diagnostic.ofFault (.cyclicHierarchy n.name)) ∧
        (∀ n ∈ g.nodes, n ∈ cyclic ↔ TransGen g.Declares n.name n.name) ∧
        ∀ n ∈ g.nodes, n ∈ cyclic ↔ TransGen (Extends definitions) n.name n.name) ∧
      (∀ n ∈ g.nodes, ∀ e, e ∈ n.edges ↔
        e ∈ n.record.edges ∧ e.target ∈ g.nodes.map ClassNode.name ∧
          ¬ (e.kind.isHierarchy ∧ ReflTransGen g.Declares e.target n.name)) ∧
      ∀ n ∈ g.nodes, ∀ kind : EdgeKind, kind.isHierarchy → ∀ x,
        (∃ e ∈ n.edges, e.kind = kind ∧ e.target = x) ↔
          x ∈ n.record.supertypes kind ∧ x ∈ g.nodes.map ClassNode.name ∧
            ¬ ReflTransGen (Extends definitions) x n.name := by
  intro frozen g
  have h := holds_run definitions
  have hwalk := List.Perm.refl (empty.recordAll definitions).slots
  obtain ⟨cyclic, hsublist, hfaults, hcyclic⟩ := exists_cyclic h hsplit
  have hnamed : ∀ n ∈ g.nodes, n ∈ cyclic ↔ TransGen (Extends definitions) n.name n.name := by
    rw [← declares_eq_extends hwalk]
    exact hcyclic
  refine ⟨?_, fun d hd => (mem_names_iff hwalk).mpr ⟨d, hd, rfl⟩, not_transGen_keeps h hsplit,
    ⟨cyclic, hsublist, (nodup_names hwalk).sublist (hsublist.map ClassNode.name),
      pairwise_nodes.sublist hsublist, hfaults, hcyclic, hnamed⟩,
    fun n hn e => mem_edges_finishWith h hsplit hn,
    fun n hn kind hkind x => exists_supertype_edge_iff hwalk hsplit hn hkind⟩
  intro n hn
  rw [nodes_finishWith h] at hn
  obtain ⟨d, hd, rfl⟩ := List.mem_map.mp hn
  obtain ⟨s, hs, rfl⟩ := List.mem_map.mp ((perm_classes _).mem_iff.mp hd)
  exact h.authoritative hs

/-- Some of the classes in their order, told by a test on the names. -/
theorem map_name_eq_filter {nodes cyclic : List ClassNode} (hnames : (nodes.map ClassNode.name).Nodup)
    (hsublist : cyclic.Sublist nodes) (p : String → Prop) [DecidablePred p]
    (h : ∀ n ∈ nodes, n ∈ cyclic ↔ p n.name) :
    cyclic.map ClassNode.name = (nodes.map ClassNode.name).filter p := by
  have hnodup : nodes.Nodup := List.Nodup.of_map _ hnames
  have hsome : cyclic.Sublist (nodes.filter fun n => p n.name) := by
    have hall : ∀ n ∈ cyclic, decide (p n.name) = true := fun n hn =>
      decide_eq_true ((h n (hsublist.subset hn)).mp hn)
    have hfiltered := hsublist.filter fun n => decide (p n.name)
    rwa [List.filter_eq_self.mpr hall] at hfiltered
  have hsame : cyclic.Perm (nodes.filter fun n => p n.name) := by
    refine (List.perm_ext_iff_of_nodup (hnodup.sublist hsublist) (hnodup.filter _)).mpr fun n => ?_
    rw [List.mem_filter, decide_eq_true_eq]
    exact ⟨fun hn => ⟨hsublist.subset hn, (h n (hsublist.subset hn)).mp hn⟩,
      fun hn => (h n hn.1).mpr hn.2⟩
  rw [hsome.eq_of_length hsame.length_eq, List.filter_map]
  rfl

/-- Two classes that extend each other, one that extends itself, and one below them. -/
def twoCycles : List Definition :=
  [.plain "a.Egg" (some "a.Hen") 0 0, .plain "a.Hen" (some "a.Egg") 0 1,
    .plain "a.Self" (some "a.Self") 0 2, .plain "a.Chick" (some "a.Hen") 0 3]

theorem extends_twoCycles_iff {a c : String} : Extends twoCycles a c ↔
    (a, c) ∈ [("a.Egg", "a.Hen"), ("a.Hen", "a.Egg"), ("a.Self", "a.Self"), ("a.Chick", "a.Hen")] := by
  rw [extends_iff_superclass (by decide) (by decide)]
  constructor
  · rintro ⟨d, hd, rfl, hsuperclass, -⟩
    simp only [twoCycles, List.mem_cons, List.not_mem_nil, or_false] at hd
    obtain rfl | rfl | rfl | rfl := hd <;> simp_all [Definition.plain, Definition.name]
  · have hrecorded : ∀ p ∈ [("a.Egg", "a.Hen"), ("a.Hen", "a.Egg"), ("a.Self", "a.Self"),
        ("a.Chick", "a.Hen")], ∃ d ∈ twoCycles, d.name = p.1 ∧ d.record.superclass = some p.2 ∧
          ∃ c ∈ twoCycles, c.name = p.2 := by
      decide
    exact hrecorded (a, c)

/-- Nothing leads to the class below the cycles, and all others lie on one. -/
theorem extends_back_iff {a c : String} (h : Extends twoCycles a c) :
    ReflTransGen (Extends twoCycles) c a ↔ a ≠ "a.Chick" := by
  constructor
  · rintro hback rfl
    have hlast : ∀ d, ¬ Extends twoCycles d "a.Chick" := by simp [extends_twoCycles_iff]
    rcases ReflTransGen.cases_tail hback with rfl | ⟨d, -, hd⟩
    · exact hlast _ h
    · exact hlast d hd
  · intro hother
    have hegg : Extends twoCycles "a.Egg" "a.Hen" := extends_twoCycles_iff.mpr (by simp)
    have hhen : Extends twoCycles "a.Hen" "a.Egg" := extends_twoCycles_iff.mpr (by simp)
    simp only [extends_twoCycles_iff, List.mem_cons, Prod.mk.injEq, List.not_mem_nil, or_false] at h
    obtain ⟨rfl, rfl⟩ | ⟨rfl, rfl⟩ | ⟨rfl, rfl⟩ | ⟨rfl, rfl⟩ := h
    · exact .single hhen
    · exact .single hegg
    · exact .refl
    · exact absurd rfl hother

theorem names_twoCycles {split : List (String × List String) → List (List String)} :
    ((empty.recordAll twoCycles).finishWith split).1.nodes.map ClassNode.name =
      ["a.Egg", "a.Hen", "a.Self", "a.Chick"] := by
  have hsorted : (empty.recordAll twoCycles).classes = twoCycles := by
    rw [classes_eq_mergeSort]
    exact List.mergeSort_of_pairwise (by decide)
  rw [names_finishWith, hsorted]
  rfl

theorem transGen_twoCycles_iff {name : String}
    (hname : name ∈ ["a.Egg", "a.Hen", "a.Self", "a.Chick"]) :
    TransGen (Extends twoCycles) name name ↔ name ≠ "a.Chick" := by
  have hsupertype : ∃ c, Extends twoCycles name c := by
    simp only [extends_twoCycles_iff]
    revert name
    simp
  obtain ⟨c, hc⟩ := hsupertype
  constructor
  · intro hcycle
    obtain ⟨d, hd, hback⟩ := TransGen.head'_iff.mp hcycle
    exact (extends_back_iff hd).mp hback
  · exact fun hother => TransGen.head' hc ((extends_back_iff hc).mpr hother)

/-- All but the last one are reported, and of the four supertypes only that of the last one stays. -/
theorem two_cycles_are_cut_by_the_search :
    FindsComponents Hierarchy.components ∧
      let frozen := (empty.recordAll twoCycles).finishWith Hierarchy.components
      (∀ name, ¬ TransGen frozen.1.Keeps name name) ∧
      frozen.2 = ["a.Egg", "a.Hen", "a.Self"].map
        (fun name => Diagnostic.ofFault (.cyclicHierarchy name)) ∧
      (∀ a c, frozen.1.Declares a c ↔ (a, c) ∈ [("a.Egg", "a.Hen"), ("a.Hen", "a.Egg"),
        ("a.Self", "a.Self"), ("a.Chick", "a.Hen")]) ∧
      ∀ a c, frozen.1.Keeps a c ↔ a = "a.Chick" ∧ c = "a.Hen" := by
  refine ⟨Hierarchy.components_findsComponents, ?_⟩
  intro frozen
  have hwalk := List.Perm.refl (empty.recordAll twoCycles).slots
  have hdeclares : frozen.1.Declares = Extends twoCycles := declares_eq_extends hwalk
  obtain ⟨_, _, hacyclic, ⟨cyclic, hsublist, _, _, hreport, _, hcyclic⟩, hkept, _⟩ :=
    freezing_cuts_exactly_the_cycles Hierarchy.components_findsComponents twoCycles
  refine ⟨hacyclic, ?_, fun a c => by rw [hdeclares, extends_twoCycles_iff], fun a c => ?_⟩
  · have hnames : cyclic.map ClassNode.name = ["a.Egg", "a.Hen", "a.Self"] := by
      rw [map_name_eq_filter (nodup_names hwalk) hsublist (· ≠ "a.Chick") fun n hn =>
        (hcyclic n hn).trans (transGen_twoCycles_iff (names_twoCycles ▸ List.mem_map_of_mem hn)),
        names_twoCycles]
      decide
    rw [hreport, ← hnames, List.map_map]
    rfl
  · rw [ClassGraph.keeps_iff hkept, hdeclares]
    constructor
    · rintro ⟨hextends, hback⟩
      rw [extends_back_iff hextends, not_not] at hback
      simpa [hback] using extends_twoCycles_iff.mp hextends
    · rintro ⟨rfl, rfl⟩
      have hextends : Extends twoCycles "a.Chick" "a.Hen" := extends_twoCycles_iff.mpr (by simp)
      exact ⟨hextends, fun hback => (extends_back_iff hextends).mp hback rfl⟩

end GraphBuilder

end ClassAtlas
