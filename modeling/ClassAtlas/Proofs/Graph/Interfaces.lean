-- Interfaces and implementors in a finished graph. Upwards all superclasses come before the first
-- interface; downwards both kinds of links are mixed, but for the first one. So the first answer is
-- part of the second, and both say the same where nothing that is implemented gets interfaces from
-- a superclass of its own.
import ClassAtlas.Proofs.Graph.EdgeSet
import ClassAtlas.Proofs.Graph.Superclasses

namespace ClassAtlas

open Relation (TransGen ReflTransGen)

/-! ## The records alone -/

/-- Links lead from `a` up to `b`, and the last of them names `b` as an interface. -/
def Implements (definitions : List Definition) (a b : String) : Prop :=
  ∃ c, ReflTransGen (Rises definitions) a c ∧ Links definitions .interface c b

/-- Links lead from `a` up to `b`, first to superclasses and then, one or more, to interfaces. -/
def HasInterface (definitions : List Definition) (a b : String) : Prop :=
  ∃ c, ReflTransGen (Links definitions .superclass) a c ∧
    TransGen (Links definitions .interface) c b

/-- One step down in the search for what implements `name`: against a link to an interface, or
against one to a superclass, but not from `name` itself. -/
def StepsDown (definitions : List Definition) (name a c : String) : Prop :=
  Links definitions .interface c a ∨ a ≠ name ∧ Links definitions .superclass c a

section

variable {definitions : List Definition} {a b c : String}

theorem rises_iff : Rises definitions a b ↔
    Links definitions .superclass a b ∨ Links definitions .interface a b := by
  constructor
  · rintro ⟨kind, hlink⟩
    rcases EdgeKind.isHierarchy_iff.mp hlink.isHierarchy with rfl | rfl
    · exact Or.inl hlink
    · exact Or.inr hlink
  · rintro (hlink | hlink)
    · exact ⟨_, hlink⟩
    · exact ⟨_, hlink⟩

theorem rises_of_links {kind : EdgeKind} (h : ReflTransGen (Links definitions kind) a b) :
    ReflTransGen (Rises definitions) a b :=
  ReflTransGen.mono (fun _ _ hlink => ⟨kind, hlink⟩) a b h

theorem HasInterface.implements (h : HasInterface definitions a b) :
    Implements definitions a b := by
  obtain ⟨c, hsuperclasses, hinterfaces⟩ := h
  obtain ⟨d, hbelow, hlast⟩ := TransGen.tail'_iff.mp hinterfaces
  exact ⟨d, (rises_of_links hsuperclasses).trans (rises_of_links hbelow), hlast⟩

theorem Implements.ne (h : Implements definitions a b) : a ≠ b := by
  obtain ⟨c, habove, hlast⟩ := h
  rintro rfl
  exact not_transGen_rises a (TransGen.tail' habove ⟨_, hlast⟩)

theorem StepsDown.rises (h : StepsDown definitions b a c) : Rises definitions c a := by
  rcases h with hlink | ⟨_, hlink⟩
  · exact ⟨_, hlink⟩
  · exact ⟨_, hlink⟩

/-- What implements a class is what the steps down from it lead to. -/
theorem implements_iff : Implements definitions a b ↔ TransGen (StepsDown definitions b) b a := by
  constructor
  · rintro ⟨c, habove, hlast⟩
    refine TransGen.head' (Or.inl hlast) ?_
    induction habove using ReflTransGen.head_induction_on with
    | refl => exact .refl
    | @head a a' hstep habove ih =>
      have hne : a' ≠ b := Implements.ne ⟨c, habove, hlast⟩
      rcases rises_iff.mp hstep with hlink | hlink
      · exact ih.tail (Or.inr ⟨hne, hlink⟩)
      · exact ih.tail (Or.inl hlink)
  · intro hdown
    obtain ⟨c, hfirst | ⟨hne, _⟩, hrest⟩ := TransGen.head'_iff.mp hdown
    · have hrises : ReflTransGen (Function.swap (Rises definitions)) c a :=
        ReflTransGen.mono (fun _ _ hstep => StepsDown.rises hstep) c a hrest
      exact ⟨c, Relation.reflTransGen_swap.mp hrises, hfirst⟩
    · exact absurd rfl hne

/-- Where no superclass of a class that is implemented has a scanned interface, the links to
superclasses come before those to interfaces on every way up to a scanned interface. -/
theorem Implements.hasInterface (h : Implements definitions a b) (hb : Scanned definitions b)
    (hfirst : ∀ x z w u, Links definitions .interface x z →
      TransGen (Links definitions .superclass) z w → Links definitions .interface w u →
        ¬ Scanned definitions u) :
    HasInterface definitions a b := by
  obtain ⟨c, habove, hlast⟩ := h
  induction habove using ReflTransGen.head_induction_on with
  | refl => exact ⟨c, .refl, .single hlast⟩
  | @head a a' hstep _ ih =>
    obtain ⟨x, hsuperclasses, hinterfaces⟩ := ih
    rcases rises_iff.mp hstep with hlink | hlink
    · exact ⟨x, .head hlink hsuperclasses, hinterfaces⟩
    · rcases Relation.reflTransGen_iff_eq_or_transGen.mp hsuperclasses with rfl | hsuperclasses
      · exact ⟨a, .refl, .head hlink hinterfaces⟩
      · -- a link to an interface, then one to a superclass, then one to an interface again
        obtain ⟨u, hxu, hub⟩ := TransGen.head'_iff.mp hinterfaces
        have hu : Scanned definitions u := by
          rcases ReflTransGen.cases_head hub with rfl | ⟨v, huv, _⟩
          · exact hb
          · exact huv.scanned
        exact absurd hu (hfirst a a' x u hlink hsuperclasses hxu)

end

/-! ## The finished graph -/

/-- Where the search for the interfaces of a class starts: at the class and at its superclasses. -/
def ClassGraph.interfaceStarts (g : ClassGraph) (name : String) : List String :=
  if g.contains name then name :: (g.superclasses name).map ClassNode.name else []

theorem ClassGraph.interfaces_eq (g : ClassGraph) (name : String) :
    g.interfaces name = g.nodesNamed (Search.reached (g.targets fun kind => kind = .interface)
      g.nodes.length (g.interfaceStarts name) []) := rfl

namespace GraphBuilder

open Hierarchy (FindsComponents)

section

variable {split : List (String × List String) → List (List String)} (hsplit : FindsComponents split)
  {definitions : List Definition} {b : GraphBuilder}
  (hwalk : b.slots.Perm (empty.recordAll definitions).slots)

include hsplit hwalk

theorem leads_implementors (name : String) :
    Search.Leads (fun current =>
        (b.finishWith split).1.namesAt
            (QueryIndex.lookUp (b.finishWith split).1.index.interfaceOf current) ++
          if current = name then []
          else (b.finishWith split).1.namesAt
            (QueryIndex.lookUp (b.finishWith split).1.index.superclassOf current)) =
      StepsDown definitions name := by
  funext a c
  apply propext
  unfold Search.Leads
  rw [List.mem_append]
  apply or_congr
  · exact mem_namesAt_supertypes hwalk hsplit rfl
  · by_cases ha : a = name
    · simp [ha]
    · rw [if_neg ha]
      exact (mem_namesAt_supertypes hwalk hsplit rfl).trans (and_iff_right ha).symm

theorem mem_implementors {name : String} {n : ClassNode} :
    n ∈ (b.finishWith split).1.implementors name ↔
      n ∈ (b.finishWith split).1.nodes ∧ Implements definitions n.name name := by
  unfold ClassGraph.implementors
  rw [ClassGraph.mem_nodesAmong_reached, leads_implementors hsplit hwalk, ← implements_iff]
  · exact and_congr_right fun _ => and_iff_right_of_imp Implements.ne
  · intro x
    refine List.append_subset.mpr ⟨ClassGraph.namesAt_subset _, ?_⟩
    split
    · exact List.nil_subset _
    · exact ClassGraph.namesAt_subset _

theorem leads_interfaces : Search.Leads
      ((b.finishWith split).1.targets fun kind => kind = EdgeKind.interface) =
    fun a c => Links definitions .interface a c ∧ Scanned definitions c := by
  funext a c
  apply propext
  unfold Search.Leads
  rw [ClassGraph.mem_targets (nodup_names hwalk), ← exists_kept_edge_iff hwalk hsplit rfl]
  simp only [decide_eq_true_eq]
  refine and_iff_left_of_imp ?_
  rintro ⟨n, hn, _, e, he, _, rfl⟩
  exact ((mem_edges_finishWith (holds_walk hwalk) hsplit hn).mp he).2.1

theorem mem_interfaceStarts {name x : String} (hx : Scanned definitions x) :
    x ∈ (b.finishWith split).1.interfaceStarts name ↔
      ReflTransGen (Links definitions .superclass) name x := by
  have hcontains : (b.finishWith split).1.contains name ↔ Scanned definitions name :=
    (ClassGraph.contains_iff _ name).trans (scanned_iff hwalk).symm
  have habove : x ∈ ((b.finishWith split).1.superclasses name).map ClassNode.name ↔
      TransGen (Links definitions .superclass) name x := by
    constructor
    · intro hmem
      obtain ⟨n, hn, rfl⟩ := List.mem_map.mp hmem
      exact ((mem_superclasses hsplit hwalk).mp hn).2
    · intro hlinks
      have hnode : x ∈ (b.finishWith split).1.nodes.map ClassNode.name := (scanned_iff hwalk).mp hx
      obtain ⟨n, hn, rfl⟩ := List.mem_map.mp hnode
      exact List.mem_map.mpr ⟨n, (mem_superclasses hsplit hwalk).mpr ⟨hn, hlinks⟩, rfl⟩
  unfold ClassGraph.interfaceStarts
  rw [Relation.reflTransGen_iff_eq_or_transGen]
  by_cases hname : Scanned definitions name
  · rw [if_pos (hcontains.mpr hname), List.mem_cons, habove]
  · rw [if_neg (mt hcontains.mp hname)]
    simp only [List.not_mem_nil, false_iff, not_or]
    refine ⟨fun heq => hname (heq ▸ hx), fun hlinks => ?_⟩
    obtain ⟨c, hfirst, _⟩ := TransGen.head'_iff.mp hlinks
    exact hname hfirst.scanned

theorem mem_interfaces {name : String} {n : ClassNode} :
    n ∈ (b.finishWith split).1.interfaces name ↔
      n ∈ (b.finishWith split).1.nodes ∧ HasInterface definitions name n.name := by
  have hnames : ((b.finishWith split).1.nodes.map ClassNode.name).Nodup := nodup_names hwalk
  rw [ClassGraph.interfaces_eq, ClassGraph.mem_nodesNamed hnames, Search.mem_reached
    (ClassGraph.targets_subset hnames _) (List.length_map _) (List.nil_subset _),
    leads_interfaces hsplit hwalk]
  refine and_congr_right fun hn => ?_
  simp only [List.not_mem_nil, not_false_eq_true, true_and,
    transGen_scanned (fun _ _ hlink => Links.scanned hlink) (scanned_node hwalk hn)]
  refine exists_congr fun x => and_congr_left fun hinterfaces => ?_
  obtain ⟨c, hfirst, _⟩ := TransGen.head'_iff.mp hinterfaces
  exact mem_interfaceStarts hsplit hwalk hfirst.scanned

omit hsplit in
theorem nodup_interfaces (name : String) :
    (((b.finishWith split).1.interfaces name).map ClassNode.name).Nodup := by
  have hnames : ((b.finishWith split).1.nodes.map ClassNode.name).Nodup := nodup_names hwalk
  rw [ClassGraph.interfaces_eq, ClassGraph.map_name_nodesNamed hnames]
  exact (Search.nodup_reached (ClassGraph.targets_subset hnames _) (List.length_map _) _
    List.nodup_nil).filter _

/-- The condition of `Implements.hasInterface`, told by the edges of the graph. -/
theorem not_scanned_of_no_edge (hedges : ∀ y ∈ (b.finishWith split).1.nodes, ∀ e ∈ y.edges,
      e.kind = .interface → ∀ w ∈ (b.finishWith split).1.superclasses e.target, ∀ f ∈ w.edges,
        f.kind ≠ .interface) {x z w u : String} (hxz : Links definitions .interface x z)
    (hzw : TransGen (Links definitions .superclass) z w) (hwu : Links definitions .interface w u) :
    ¬ Scanned definitions u := by
  intro hu
  obtain ⟨_, hfirst, _⟩ := TransGen.head'_iff.mp hzw
  obtain ⟨y, hy, _, e, he, hekind, rfl⟩ :=
    (exists_kept_edge_iff hwalk hsplit rfl).mpr ⟨hxz, hfirst.scanned⟩
  obtain ⟨n, hn, rfl, f, hf, hfkind, _⟩ := (exists_kept_edge_iff hwalk hsplit rfl).mpr ⟨hwu, hu⟩
  exact hedges y hy e he hekind n ((mem_superclasses hsplit hwalk).mpr ⟨hn, hzw⟩) f hf hfkind

end

/-- For all recorded definitions: the implementors of a name are the classes from which links lead
up to it, an interface at last, in the order of arrival, once and without the name itself; the
interfaces of a name are the scanned classes to which links to superclasses and then links to
interfaces lead, once. One class is among the implementors of another if that is among its
interfaces, and only if, where no superclass of a class with an interface edge to it has an
interface edge itself. -/
theorem implementors_mirror_interfaces
    {split : List (String × List String) → List (List String)} (hsplit : FindsComponents split)
    (definitions : List Definition) {b : GraphBuilder}
    (hwalk : b.slots.Perm (empty.recordAll definitions).slots) :
    let g := (b.finishWith split).1
    (∀ name, g.InArrivalOrder (g.implementors name) ∧
      (∀ n ∈ g.implementors name, n.name ≠ name) ∧
      ∀ n, n ∈ g.implementors name ↔ n ∈ g.nodes ∧ Implements definitions n.name name) ∧
    (∀ name, ((g.interfaces name).map ClassNode.name).Nodup ∧
      ∀ n, n ∈ g.interfaces name ↔ n ∈ g.nodes ∧ HasInterface definitions name n.name) ∧
    (∀ d ∈ g.nodes, ∀ n ∈ g.nodes, n ∈ g.interfaces d.name → d ∈ g.implementors n.name) ∧
    ((∀ y ∈ g.nodes, ∀ e ∈ y.edges, e.kind = .interface →
        ∀ w ∈ g.superclasses e.target, ∀ f ∈ w.edges, f.kind ≠ .interface) →
      ∀ d ∈ g.nodes, ∀ n ∈ g.nodes, d ∈ g.implementors n.name → n ∈ g.interfaces d.name) := by
  intro g
  have hbelow : ∀ {name n}, n ∈ g.implementors name ↔
      n ∈ g.nodes ∧ Implements definitions n.name name := mem_implementors hsplit hwalk
  have habove : ∀ {name n}, n ∈ g.interfaces name ↔
      n ∈ g.nodes ∧ HasInterface definitions name n.name := mem_interfaces hsplit hwalk
  refine ⟨fun name => ⟨inArrivalOrder hwalk (ClassGraph.sublist_nodesAmong _),
      fun n hn => (hbelow.mp hn).2.ne, fun n => hbelow⟩,
    fun name => ⟨nodup_interfaces hwalk name, fun n => habove⟩, ?_, ?_⟩
  · intro d hd n _ hinterface
    exact hbelow.mpr ⟨hd, (habove.mp hinterface).2.implements⟩
  · intro hedges d _ n hn himplements
    refine habove.mpr ⟨hn, (hbelow.mp himplements).2.hasInterface (scanned_node hwalk hn) ?_⟩
    exact fun _ _ _ _ => not_scanned_of_no_edge hsplit hwalk hedges

/-- A hen is a bird and with that an animal, and so is the chick that extends it. -/
theorem a_chick_is_an_animal_by_its_hen :
    let definitions := [Definition.plain "a.Chick" (some "a.Hen") 0 0,
      (Definition.plain "a.Hen" (some "a.Egg") 0 1).implementing ["a.Bird"],
      (Definition.plain "a.Bird" none 0 2).implementing ["a.Animal"],
      .plain "a.Animal" none 0 3, .plain "a.Egg" none 0 4]
    let b := empty.recordAll definitions
    let g := (b.finishWith Hierarchy.components).1
    FindsComponents Hierarchy.components ∧ b.slots.Perm (empty.recordAll definitions).slots ∧
      (∀ y ∈ g.nodes, ∀ e ∈ y.edges, e.kind = .interface →
        ∀ w ∈ g.superclasses e.target, ∀ f ∈ w.edges, f.kind ≠ .interface) ∧
      (g.implementors "a.Animal").map ClassNode.name = ["a.Chick", "a.Hen", "a.Bird"] ∧
      ∀ d ∈ g.nodes, ∀ n ∈ g.nodes, d ∈ g.implementors n.name → n ∈ g.interfaces d.name := by
  intro definitions b g
  have hsorted : b.sortedSlots = b.slots := List.mergeSort_of_pairwise (by decide)
  have hcomputed : (∀ y ∈ g.nodes, ∀ e ∈ y.edges, e.kind = .interface →
        ∀ w ∈ g.superclasses e.target, ∀ f ∈ w.edges, f.kind ≠ .interface) ∧
      (g.implementors "a.Animal").map ClassNode.name = ["a.Chick", "a.Hen", "a.Bird"] := by
    unfold g finishWith pending
    simp only [hsorted]
    decide +kernel
  obtain ⟨_, _, _, hmirror⟩ := implementors_mirror_interfaces Hierarchy.components_findsComponents
    definitions (List.Perm.refl b.slots)
  exact ⟨Hierarchy.components_findsComponents, List.Perm.refl _, hcomputed.1, hcomputed.2,
    hmirror hcomputed.1⟩

end GraphBuilder

end ClassAtlas
