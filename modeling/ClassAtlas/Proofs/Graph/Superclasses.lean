-- Superclasses and subclasses in a finished graph. The subclasses of a name are found downwards
-- through the index, for names that were not scanned as well; the superclasses of a class are the
-- line that its edges lead up. Both follow the same links.
import ClassAtlas.Proofs.Graph.Ancestors

namespace ClassAtlas.GraphBuilder

open Relation (TransGen)
open Hierarchy (FindsComponents)

section

variable {split : List (String × List String) → List (List String)} (hsplit : FindsComponents split)
  {definitions : List Definition} {b : GraphBuilder}
  (hwalk : b.slots.Perm (empty.recordAll definitions).slots)

include hsplit hwalk

/-! ## Downwards -/

theorem leads_superclassOf : Search.Leads (fun current => (b.finishWith split).1.namesAt
      (QueryIndex.lookUp (b.finishWith split).1.index.superclassOf current)) =
    Function.swap (Links definitions .superclass) := by
  funext a c
  exact propext (mem_namesAt_supertypes hwalk hsplit rfl)

theorem mem_subclasses {name : String} {n : ClassNode} :
    n ∈ (b.finishWith split).1.subclasses name ↔ n ∈ (b.finishWith split).1.nodes ∧
      n.name ≠ name ∧ TransGen (Links definitions .superclass) n.name name := by
  unfold ClassGraph.subclasses
  rw [ClassGraph.mem_nodesAmong_reached fun _ => ClassGraph.namesAt_subset _,
    leads_superclassOf hsplit hwalk, Relation.transGen_swap]

/-! ## Upwards -/

/-- The first superclass edge of a class is its link to a scanned superclass. -/
theorem superclass?_eq_some_iff {a c : String} : (b.finishWith split).1.superclass? a = some c ↔
    Links definitions .superclass a c ∧ Scanned definitions c := by
  have hnames : ((b.finishWith split).1.nodes.map ClassNode.name).Nodup := nodup_names hwalk
  have hout : ∀ e, e ∈ (b.finishWith split).1.outgoing a → e.kind = .superclass →
      Links definitions .superclass a e.target ∧ Scanned definitions e.target := by
    intro e he hkind
    obtain ⟨n, hn, hname, he⟩ := (ClassGraph.mem_outgoing_iff hnames).mp he
    exact (exists_kept_edge_iff hwalk hsplit rfl).mp ⟨n, hn, hname, e, he, hkind, rfl⟩
  unfold ClassGraph.superclass?
  cases hfind : ((b.finishWith split).1.outgoing a).find? fun e => e.kind = .superclass with
  | none =>
    simp only [Option.bind_none, reduceCtorEq, false_iff]
    intro hlink
    obtain ⟨n, hn, hname, e, he, hkind, _⟩ := (exists_kept_edge_iff hwalk hsplit rfl).mpr hlink
    have hnone := List.find?_eq_none.mp hfind e
      ((ClassGraph.mem_outgoing_iff hnames).mpr ⟨n, hn, hname, he⟩)
    exact hnone (by simpa using hkind)
  | some e =>
    obtain ⟨hlink, hscanned⟩ := hout e (List.mem_of_find?_eq_some hfind)
      (by simpa using List.find?_some hfind)
    have hcontains : (b.finishWith split).1.contains e.target = true :=
      (ClassGraph.contains_iff _ _).mpr ((scanned_iff hwalk).mp hscanned)
    simp only [Option.bind_some, hcontains, if_true, Option.some.injEq]
    constructor
    · rintro rfl
      exact ⟨hlink, hscanned⟩
    · exact fun hother => hlink.unique hother.1

theorem superclass?_eq_links : (fun a c => (b.finishWith split).1.superclass? a = some c) =
    fun a c => Links definitions .superclass a c ∧ Scanned definitions c := by
  funext a c
  exact propext (superclass?_eq_some_iff hsplit hwalk)

theorem superclass?_subset (name : String) : ((b.finishWith split).1.superclass? name).toList ⊆
    (b.finishWith split).1.nodes.map ClassNode.name := by
  intro c hc
  have hlink := (superclass?_eq_some_iff hsplit hwalk).mp (Option.mem_toList.mp hc)
  exact (scanned_iff hwalk).mp hlink.2

theorem map_name_superclasses (name : String) :
    ((b.finishWith split).1.superclasses name).map ClassNode.name =
      Search.reached (fun current => ((b.finishWith split).1.superclass? current).toList)
        (b.finishWith split).1.nodes.length [name] [name] := by
  exact ClassGraph.map_name_nodesNamed_of_subset (nodup_names hwalk) (Search.reached_subset
    (superclass?_subset hsplit hwalk) (List.length_map _) (List.Subset.refl [name]))

theorem nodup_superclasses (name : String) :
    (((b.finishWith split).1.superclasses name).map ClassNode.name).Nodup := by
  rw [map_name_superclasses hsplit hwalk]
  exact Search.nodup_reached (superclass?_subset hsplit hwalk) (List.length_map _) [name]
    (List.nodup_singleton name)

theorem line_superclasses (name : String) :
    Search.Line (fun a c => Links definitions .superclass a c ∧ Scanned definitions c) name
      (((b.finishWith split).1.superclasses name).map ClassNode.name) := by
  have hacyclic : ∀ a,
      ¬ TransGen (fun a c => (b.finishWith split).1.superclass? a = some c) a a := by
    intro a hcycle
    rw [superclass?_eq_links hsplit hwalk] at hcycle
    exact not_transGen_links .superclass a (TransGen.mono (fun _ _ hstep => hstep.1) a a hcycle)
  have hends := Search.ends_reached (superclass?_subset hsplit hwalk) (List.length_map _)
    [name] [name]
  rw [← map_name_superclasses hsplit hwalk] at hends
  have hnew : ∀ y ∈ [name],
      ¬ TransGen (fun a c => (b.finishWith split).1.superclass? a = some c) name y := by
    intro y hy
    rw [List.mem_singleton.mp hy]
    exact hacyclic name
  obtain ⟨line, hresult, hline⟩ := hends.line hacyclic name rfl hnew
  rw [superclass?_eq_links hsplit hwalk] at hline
  rwa [List.append_cancel_left hresult]

theorem mem_superclasses {name : String} {n : ClassNode} :
    n ∈ (b.finishWith split).1.superclasses name ↔ n ∈ (b.finishWith split).1.nodes ∧
      TransGen (Links definitions .superclass) name n.name := by
  have hleads : Search.Leads (fun a => ((b.finishWith split).1.superclass? a).toList) =
      fun a c => Links definitions .superclass a c ∧ Scanned definitions c := by
    rw [← superclass?_eq_links hsplit hwalk]
    funext a c
    exact propext Option.mem_toList
  unfold ClassGraph.superclasses
  rw [ClassGraph.mem_nodesNamed (nodup_names hwalk), Search.mem_reached
    (superclass?_subset hsplit hwalk) (List.length_map _) (List.Subset.refl [name]), hleads]
  refine and_congr_right fun hn => ?_
  simp only [List.mem_singleton, exists_eq_left,
    transGen_scanned (fun _ _ hlink => Links.scanned hlink) (scanned_node hwalk hn)]
  refine and_iff_right_of_imp fun habove heq => ?_
  rw [heq] at habove
  exact not_transGen_links .superclass name habove

end

/-! ## Both ways -/

/-- For all recorded definitions: the subclasses of a name, scanned or not, are the other classes
from which links to superclasses lead to it, once and in the order of arrival; the superclasses of
a name are the whole line of scanned classes that such links lead up, the nearest first and each
of them once; and one class is among the subclasses of another if that is among its superclasses. -/
theorem superclasses_and_subclasses_mirror_each_other
    {split : List (String × List String) → List (List String)} (hsplit : FindsComponents split)
    (definitions : List Definition) {b : GraphBuilder}
    (hwalk : b.slots.Perm (empty.recordAll definitions).slots) :
    let g := (b.finishWith split).1
    (∀ name, g.InArrivalOrder (g.subclasses name) ∧
      ∀ n, n ∈ g.subclasses name ↔
        n ∈ g.nodes ∧ n.name ≠ name ∧ TransGen (Links definitions .superclass) n.name name) ∧
    (∀ name, g.superclasses name ⊆ g.nodes ∧ ((g.superclasses name).map ClassNode.name).Nodup ∧
      Search.Line (fun a c => Links definitions .superclass a c ∧ Scanned definitions c) name
        ((g.superclasses name).map ClassNode.name)) ∧
    ∀ n ∈ g.nodes, ∀ d ∈ g.nodes, d ∈ g.subclasses n.name ↔ n ∈ g.superclasses d.name := by
  intro g
  refine ⟨fun name => ⟨inArrivalOrder hwalk (ClassGraph.sublist_nodesAmong _),
      fun n => mem_subclasses hsplit hwalk⟩,
    fun name => ⟨fun n hn => ((mem_superclasses hsplit hwalk).mp hn).1,
      nodup_superclasses hsplit hwalk name, line_superclasses hsplit hwalk name⟩, ?_⟩
  intro n hn d hd
  rw [mem_subclasses hsplit hwalk, mem_superclasses hsplit hwalk, and_iff_right hd,
    and_iff_right hn]
  refine and_iff_right_of_imp fun hlinks heq => ?_
  rw [heq] at hlinks
  exact not_transGen_links .superclass n.name hlinks

/-- A hen and an egg that extend each other, a chick and a fledgling below them, and a gosling
below a goose that was not scanned. -/
theorem a_fledgling_is_below_its_hen :
    let definitions := [Definition.plain "a.Egg" (some "a.Hen") 0 0,
      .plain "a.Hen" (some "a.Egg") 0 1, .plain "a.Fledgling" (some "a.Chick") 0 2,
      .plain "a.Chick" (some "a.Hen") 0 3, .plain "a.Gosling" (some "b.Goose") 0 4]
    let b := empty.recordAll definitions
    let g := (b.finishWith Hierarchy.components).1
    FindsComponents Hierarchy.components ∧ b.slots.Perm (empty.recordAll definitions).slots ∧
      (g.subclasses "a.Hen").map ClassNode.name = ["a.Fledgling", "a.Chick"] ∧
      (g.subclasses "b.Goose").map ClassNode.name = ["a.Gosling"] ∧
      (g.superclasses "a.Fledgling").map ClassNode.name = ["a.Chick", "a.Hen"] ∧
      ∀ n ∈ g.nodes, ∀ d ∈ g.nodes, d ∈ g.subclasses n.name ↔ n ∈ g.superclasses d.name := by
  intro definitions b g
  have hsorted : b.sortedSlots = b.slots := List.mergeSort_of_pairwise (by decide)
  have hcomputed : (g.subclasses "a.Hen").map ClassNode.name = ["a.Fledgling", "a.Chick"] ∧
      (g.subclasses "b.Goose").map ClassNode.name = ["a.Gosling"] ∧
      (g.superclasses "a.Fledgling").map ClassNode.name = ["a.Chick", "a.Hen"] := by
    unfold g finishWith pending
    simp only [hsorted]
    decide +kernel
  obtain ⟨_, _, hmirror⟩ := superclasses_and_subclasses_mirror_each_other
    Hierarchy.components_findsComponents definitions (List.Perm.refl b.slots)
  exact ⟨Hierarchy.components_findsComponents, List.Perm.refl _, hcomputed.1, hcomputed.2.1,
    hcomputed.2.2, hmirror⟩

end ClassAtlas.GraphBuilder
