-- The index against the records. What is looked up in the index is what one finds who goes through
-- all classes of the graph in their order and looks at the record of each.
import ClassAtlas.Proofs.Graph.Links

namespace ClassAtlas

open Relation (ReflTransGen)

/-! ## The records alone -/

namespace ClassRecord

/-- A method of the class carries the annotation, on itself or on one of its parameters. -/
def MarksMethod (r : ClassRecord) (typeName : String) : Prop :=
  ∃ m ∈ r.methods, typeName ∈ m.annotations.map AnnotationRecord.typeName ∨
    ∃ ofParameter ∈ m.parameterAnnotations, typeName ∈ ofParameter.map AnnotationRecord.typeName

/-- A field of the class carries the annotation. -/
def MarksField (r : ClassRecord) (typeName : String) : Prop :=
  ∃ f ∈ r.fields, typeName ∈ f.annotations.map AnnotationRecord.typeName

theorem mem_methodAnnotations {r : ClassRecord} {typeName : String} :
    typeName ∈ QueryIndex.methodAnnotations r ↔ r.MarksMethod typeName := by
  unfold QueryIndex.methodAnnotations MarksMethod MethodRecord.allAnnotations
  simp only [List.map_flatMap, List.mem_flatMap, List.map_append, List.mem_append, List.map_flatten,
    List.mem_flatten, List.mem_map, exists_exists_and_eq_and]

theorem mem_fieldAnnotations {r : ClassRecord} {typeName : String} :
    typeName ∈ QueryIndex.fieldAnnotations r ↔ r.MarksField typeName := by
  unfold QueryIndex.fieldAnnotations MarksField
  simp only [List.map_flatMap, List.mem_flatMap]

end ClassRecord

/-! ## One graph -/

namespace ClassGraph

variable {g : ClassGraph}

/-- Classes at some positions are those that pass a test, if the positions are those of the classes
that pass it. -/
theorem nodesAt_eq_filter {positions : List Nat} {p : ClassNode → Bool}
    (h : ∀ i n, g.nodes[i]? = some n → (i ∈ positions ↔ p n = true)) :
    g.nodesAt positions = g.nodes.filter p := by
  have hsame : (g.nodes.zipIdx.filter fun x => positions.contains x.2) =
      g.nodes.zipIdx.filter fun x => p x.1 := by
    refine List.filter_congr fun x hx => ?_
    rw [Bool.eq_iff_iff, List.contains_iff_mem]
    exact h x.2 x.1 (List.mem_zipIdx_iff_getElem?.mp hx)
  rw [nodesAt_eq, hsame]
  conv_rhs => rw [← List.zipIdx_map_fst 0 g.nodes, List.filter_map]
  rfl

theorem nodesAt_postings {names : ClassNode → List String} {name : String} {p : ClassNode → Bool}
    (h : ∀ n, name ∈ names n ↔ p n = true) :
    g.nodesAt (QueryIndex.lookUp (QueryIndex.postings names g.nodes) name) = g.nodes.filter p := by
  refine nodesAt_eq_filter fun i n hn => ?_
  rw [QueryIndex.mem_lookUp, QueryIndex.mem_postings, ← h n]
  constructor
  · rintro ⟨m, hm, hname⟩
    obtain rfl := Option.some.inj (hm.symm.trans hn)
    exact hname
  · exact fun hname => ⟨n, hn, hname⟩

theorem withMethodAnnotation_eq {name : String} {p : ClassNode → Bool}
    (h : ∀ n, n.record.MarksMethod name ↔ p n = true) :
    g.withMethodAnnotation name = g.nodes.filter p := by
  unfold withMethodAnnotation index QueryIndex.ofGraph
  exact nodesAt_postings fun n => ClassRecord.mem_methodAnnotations.trans (h n)

theorem withFieldAnnotation_eq {name : String} {p : ClassNode → Bool}
    (h : ∀ n, n.record.MarksField name ↔ p n = true) :
    g.withFieldAnnotation name = g.nodes.filter p := by
  unfold withFieldAnnotation index QueryIndex.ofGraph
  exact nodesAt_postings fun n => ClassRecord.mem_fieldAnnotations.trans (h n)

/-- Under distinct names a class is among those at some positions if its own is one of them. -/
theorem name_mem_namesAt_iff (hnames : (g.nodes.map ClassNode.name).Nodup) {positions : List Nat}
    {i : Nat} {n : ClassNode} (hn : g.nodes[i]? = some n) :
    n.name ∈ g.namesAt positions ↔ i ∈ positions := by
  rw [mem_namesAt]
  constructor
  · rintro ⟨j, hj, m, hm, hname⟩
    have hi := (position?_eq_some_iff hnames).mpr ⟨n, hn, rfl⟩
    have hj' := (position?_eq_some_iff hnames).mpr ⟨m, hm, hname⟩
    obtain rfl := Option.some.inj (hi.symm.trans hj')
    exact hj
  · exact fun hi => ⟨i, hi, n, hn, rfl⟩

end ClassGraph

/-! ## The finished graph -/

namespace GraphBuilder

open Hierarchy (FindsComponents)

section

variable {split : List (String × List String) → List (List String)} {b : GraphBuilder}
  {definitions : List Definition} (hwalk : b.slots.Perm (empty.recordAll definitions).slots)

include hwalk

/-- The links of a class are told by its record. -/
theorem links_node_iff {n : ClassNode} (hn : n ∈ (b.finishWith split).1.nodes) {kind : EdgeKind}
    {name : String} : Links definitions kind n.name name ↔
      name ∈ n.record.supertypes kind ∧ ¬ ReflTransGen (Extends definitions) name n.name := by
  have hcounts := counts_node hwalk hn
  constructor
  · rintro ⟨d, hd, hname, hsupertype, hkept⟩
    obtain rfl := hd.unique hcounts hname
    exact ⟨hsupertype, hkept⟩
  · rintro ⟨hsupertype, hkept⟩
    exact ⟨n.definition, hcounts, rfl, hsupertype, hkept⟩

theorem mem_lookUp_supertypes (hsplit : FindsComponents split) {kind : EdgeKind}
    (hkind : kind.isHierarchy) {name : String} {i : Nat} {n : ClassNode}
    (hn : (b.finishWith split).1.nodes[i]? = some n) :
    i ∈ QueryIndex.lookUp (QueryIndex.supertypes kind (b.finishWith split).1) name ↔
      name ∈ n.record.supertypes kind ∧ ¬ ReflTransGen (Extends definitions) name n.name := by
  rw [← ClassGraph.name_mem_namesAt_iff (nodup_names hwalk) hn,
    mem_namesAt_supertypes hwalk hsplit hkind, links_node_iff hwalk (List.mem_of_getElem? hn)]

theorem directSubtypes_eq (hsplit : FindsComponents split) {name : String} {p : ClassNode → Bool}
    (h : ∀ n : ClassNode, n.record.NamesSupertype name ∧
      ¬ ReflTransGen (Extends definitions) name n.name ↔ p n = true) :
    (b.finishWith split).1.directSubtypes name = (b.finishWith split).1.nodes.filter p := by
  refine ClassGraph.nodesAt_eq_filter fun i n hn => ?_
  rw [List.mem_append]
  have hsuperclass : _ ↔ name ∈ n.record.supertypes .superclass ∧ _ :=
    mem_lookUp_supertypes hwalk hsplit rfl hn
  have hinterface : _ ↔ name ∈ n.record.supertypes .interface ∧ _ :=
    mem_lookUp_supertypes hwalk hsplit rfl hn
  refine (or_congr hsuperclass hinterface).trans ?_
  rw [← or_and_right, ← h n]
  exact and_congr_left fun _ => or_congr Option.mem_toList Iff.rfl

end

open Classical in
/-- For all recorded definitions the classes of the graph are those that count, in the order of
their arrival, and for every name, scanned or not, three questions to the index are answered as by
going through them. The direct subtypes are the classes that name it as their superclass or among
their interfaces, but for those to which it leads back, whose link lies on a cycle and was cut. The
others are the classes with a method that carries it, on itself or on a parameter, and the classes
with a field that carries it. -/
theorem the_index_answers_like_a_plain_search
    {split : List (String × List String) → List (List String)} (hsplit : FindsComponents split)
    (definitions : List Definition) {b : GraphBuilder}
    (hwalk : b.slots.Perm (empty.recordAll definitions).slots) :
    let g := (b.finishWith split).1
    g.InArrivalOrder g.nodes ∧
    (∀ d, d ∈ g.nodes.map ClassNode.definition ↔ Counts definitions d) ∧
    ∀ name,
      g.directSubtypes name = (g.nodes.filter fun n => n.record.NamesSupertype name ∧
        ¬ ReflTransGen (Extends definitions) name n.name) ∧
      g.withMethodAnnotation name = (g.nodes.filter fun n => n.record.MarksMethod name) ∧
      g.withFieldAnnotation name = (g.nodes.filter fun n => n.record.MarksField name) := by
  intro g
  refine ⟨inArrivalOrder hwalk (List.Sublist.refl _), fun d => ?_, fun name => ⟨?_, ?_, ?_⟩⟩
  · rw [map_definition_nodes]
    exact mem_classes_iff hwalk
  · exact directSubtypes_eq hwalk hsplit fun n => decide_eq_true_iff.symm
  · exact ClassGraph.withMethodAnnotation_eq fun n => decide_eq_true_iff.symm
  · exact ClassGraph.withFieldAnnotation_eq fun n => decide_eq_true_iff.symm

/-- An egg and a hen that extend each other, and a chick below the hen with a method that takes
something soft. The egg and the chick implement an interface that was not scanned. -/
theorem a_chick_is_found_below_its_hen :
    let hatch : MethodRecord := ⟨"hatch", "()V", ⟨0x0001⟩, [], [[], [⟨"b.Soft", []⟩]], none, none, [],
      none⟩
    let chick := (Definition.plain "a.Chick" (some "a.Hen") 0 2).implementing ["b.Small"]
    let definitions := [(Definition.plain "a.Egg" (some "a.Hen") 0 0).implementing ["b.Small"],
      .plain "a.Hen" (some "a.Egg") 0 1,
      { chick with record := { chick.record with methods := [hatch] } }]
    let b := empty.recordAll definitions
    let g := (b.finishWith Hierarchy.components).1
    FindsComponents Hierarchy.components ∧ b.slots.Perm (empty.recordAll definitions).slots ∧
      (g.directSubtypes "a.Hen").map ClassNode.name = ["a.Chick"] ∧
      (g.directSubtypes "b.Small").map ClassNode.name = ["a.Egg", "a.Chick"] ∧
      (g.withMethodAnnotation "b.Soft").map ClassNode.name = ["a.Chick"] ∧
      ∀ n, n ∈ g.directSubtypes "a.Hen" ↔ n ∈ g.nodes ∧ n.record.NamesSupertype "a.Hen" ∧
        ¬ ReflTransGen (Extends definitions) "a.Hen" n.name := by
  intro hatch chick definitions b g
  have hsorted : b.sortedSlots = b.slots := List.mergeSort_of_pairwise (by decide)
  have hcomputed : (g.directSubtypes "a.Hen").map ClassNode.name = ["a.Chick"] ∧
      (g.directSubtypes "b.Small").map ClassNode.name = ["a.Egg", "a.Chick"] ∧
      (g.withMethodAnnotation "b.Soft").map ClassNode.name = ["a.Chick"] := by
    unfold g finishWith pending
    simp only [hsorted]
    decide +kernel
  obtain ⟨_, _, hanswers⟩ := the_index_answers_like_a_plain_search
    Hierarchy.components_findsComponents definitions (List.Perm.refl b.slots)
  refine ⟨Hierarchy.components_findsComponents, List.Perm.refl _, hcomputed.1, hcomputed.2.1,
    hcomputed.2.2, fun n => ?_⟩
  classical
  rw [(hanswers "a.Hen").1, List.mem_filter, decide_eq_true_iff]

end GraphBuilder

end ClassAtlas
