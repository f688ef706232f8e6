-- The classes that carry an annotation, in a finished graph. A class carries what stands at it and
-- what the annotation types that it carries carry themselves. Types that annotate themselves or
-- each other lead the search to what it has seen, so it ends all the same.
import ClassAtlas.Proofs.Graph.Dependencies
import ClassAtlas.Proofs.Graph.Index
import ClassAtlas.Proofs.Graph.SearchOrder

namespace ClassAtlas

open Relation (ReflTransGen TransGen)

/-! ## The records alone -/

/-- An annotation of that type stands at the class. -/
def ClassRecord.Carries (r : ClassRecord) (typeName : String) : Prop :=
  typeName ∈ r.annotations.map AnnotationRecord.typeName

/-- The definition that counts for `b` is an annotation type and carries `a`. -/
def Annotates (definitions : List Definition) (a b : String) : Prop :=
  ∃ d, Counts definitions d ∧ d.name = b ∧ d.record.access.isAnnotation ∧ d.record.Carries a

/-- A definition with annotations, and of another kind. -/
def Definition.carrying (d : Definition) (access : AccessFlags) (types : List String) :
    Definition where
  record := { d.record with access, annotations := types.map fun typeName => ⟨typeName, []⟩ }
  provenance := d.provenance

/-! ## One graph -/

namespace ClassGraph

/-- One step of the search for annotation types: those that carry `name`. -/
def annotationTypes (g : ClassGraph) (name : String) : List String :=
  ((QueryIndex.lookUp g.index.annotated name).filterMap fun i => g.nodes[i]?).filterMap fun n =>
    if n.record.access.isAnnotation then some n.name else none

variable {g : ClassGraph} {name : String}

theorem mem_annotated {i : Nat} : i ∈ QueryIndex.lookUp g.index.annotated name ↔
    ∃ n, g.nodes[i]? = some n ∧ n.record.Carries name := by
  have hpostings : g.index.annotated =
      QueryIndex.postings (fun n => n.record.annotations.map AnnotationRecord.typeName) g.nodes :=
    rfl
  rw [QueryIndex.mem_lookUp, hpostings]
  exact QueryIndex.mem_postings

theorem mem_annotationTypes {c : String} : c ∈ g.annotationTypes name ↔
    ∃ n ∈ g.nodes, n.name = c ∧ n.record.access.isAnnotation ∧ n.record.Carries name := by
  unfold annotationTypes
  simp only [List.mem_filterMap, mem_annotated, Option.ite_none_right_eq_some, Option.some.injEq]
  constructor
  · rintro ⟨n, ⟨i, ⟨m, hm, hcarries⟩, hn⟩, htype, rfl⟩
    obtain rfl := Option.some.inj (hm.symm.trans hn)
    exact ⟨m, List.mem_of_getElem? hm, rfl, htype, hcarries⟩
  · rintro ⟨n, hn, rfl, htype, hcarries⟩
    obtain ⟨i, hi⟩ := List.mem_iff_getElem?.mp hn
    exact ⟨n, ⟨i, ⟨n, hi, hcarries⟩, hi⟩, htype, rfl⟩

theorem annotationTypes_subset (name : String) :
    g.annotationTypes name ⊆ g.nodes.map ClassNode.name := by
  intro c hc
  obtain ⟨n, hn, rfl, _⟩ := mem_annotationTypes.mp hc
  exact List.mem_map.mpr ⟨n, hn, rfl⟩

theorem withAnnotation_eq (g : ClassGraph) (name : String) : g.withAnnotation name = g.nodesAt
    ((name :: Search.reached g.annotationTypes g.nodes.length [name] [name]).flatMap
      (QueryIndex.lookUp g.index.annotated)) := rfl

theorem ends_annotationTypes (name : String) :
    ∃ types, Search.Ends g.annotationTypes [name] [name] types ∧
      g.withAnnotation name = g.nodesAt (types.flatMap (QueryIndex.lookUp g.index.annotated)) := by
  exact ⟨_, Search.ends_reached annotationTypes_subset (List.length_map _) [name] [name],
    withAnnotation_eq g name⟩

/-- The search meets the name itself and all types that it leads to. -/
theorem mem_types {t : String} :
    t ∈ name :: Search.reached g.annotationTypes g.nodes.length [name] [name] ↔
      ReflTransGen (Search.Leads g.annotationTypes) name t := by
  rw [List.mem_cons, Search.mem_reached annotationTypes_subset (List.length_map _)
    (List.Subset.refl [name]), Relation.reflTransGen_iff_eq_or_transGen]
  simp only [List.mem_singleton, exists_eq_left]
  by_cases ht : t = name <;> simp [ht]

theorem mem_withAnnotation {n : ClassNode} : n ∈ g.withAnnotation name ↔ n ∈ g.nodes ∧
    ∃ t, ReflTransGen (Search.Leads g.annotationTypes) name t ∧ n.record.Carries t := by
  rw [withAnnotation_eq, mem_nodesAt]
  simp only [List.mem_flatMap, mem_types, mem_annotated]
  constructor
  · rintro ⟨i, ⟨t, ht, m, hm, hcarries⟩, hn⟩
    obtain rfl := Option.some.inj (hm.symm.trans hn)
    exact ⟨List.mem_of_getElem? hm, t, ht, hcarries⟩
  · rintro ⟨hn, t, ht, hcarries⟩
    obtain ⟨i, hi⟩ := List.mem_iff_getElem?.mp hn
    exact ⟨i, ⟨t, ht, n, hi, hcarries⟩, hi⟩

end ClassGraph

/-! ## The finished graph -/

namespace GraphBuilder

theorem leads_annotationTypes {split : List (String × List String) → List (List String)}
    {definitions : List Definition} {b : GraphBuilder}
    (hwalk : b.slots.Perm (empty.recordAll definitions).slots) :
    Search.Leads (b.finishWith split).1.annotationTypes = Annotates definitions := by
  funext a c
  apply propext
  refine ClassGraph.mem_annotationTypes.trans ?_
  constructor
  · rintro ⟨n, hn, hname, htype, hcarries⟩
    exact ⟨n.definition, counts_node hwalk hn, hname, htype, hcarries⟩
  · rintro ⟨d, hd, hname, htype, hcarries⟩
    obtain ⟨n, hn, rfl⟩ := exists_node hwalk hd
    exact ⟨n, hn, hname, htype, hcarries⟩

/-- For all recorded definitions and every name, scanned or not: the search for its annotation
types ends, and the answer is the classes that carry the name or a type to which a chain of
annotation types leads from it, each of them once and in the order of arrival. -/
theorem annotations_carry_over_through_annotation_types
    (split : List (String × List String) → List (List String)) (definitions : List Definition)
    {b : GraphBuilder} (hwalk : b.slots.Perm (empty.recordAll definitions).slots)
    (typeName : String) :
    let g := (b.finishWith split).1
    (∃ types, Search.Ends g.annotationTypes [typeName] [typeName] types ∧
      g.withAnnotation typeName =
        g.nodesAt (types.flatMap (QueryIndex.lookUp g.index.annotated))) ∧
    g.InArrivalOrder (g.withAnnotation typeName) ∧
    ∀ d, d ∈ (g.withAnnotation typeName).map ClassNode.definition ↔
      Counts definitions d ∧
        ∃ t, ReflTransGen (Annotates definitions) typeName t ∧ d.record.Carries t := by
  intro g
  refine ⟨ClassGraph.ends_annotationTypes typeName,
    inArrivalOrder hwalk (ClassGraph.sublist_nodesAt _), fun d => ?_⟩
  have hleads : Search.Leads g.annotationTypes = Annotates definitions :=
    leads_annotationTypes hwalk
  constructor
  · intro hd
    obtain ⟨n, hn, rfl⟩ := List.mem_map.mp hd
    obtain ⟨hnode, hcarries⟩ := ClassGraph.mem_withAnnotation.mp hn
    rw [hleads] at hcarries
    exact ⟨counts_node hwalk hnode, hcarries⟩
  · rintro ⟨hd, hcarries⟩
    obtain ⟨n, hn, rfl⟩ : ∃ n ∈ g.nodes, n.definition = d := exists_node hwalk hd
    rw [← hleads] at hcarries
    exact List.mem_map.mpr ⟨n, ClassGraph.mem_withAnnotation.mpr ⟨hn, hcarries⟩, rfl⟩

/-- Two annotation types carry each other, one of them itself as well, and the other one that was
not scanned. -/
theorem a_nest_is_cosy_because_it_is_soft :
    let definitions := [(Definition.plain "a.Nest" none 0 0).carrying ⟨0x0001⟩ ["a.Soft"],
      (Definition.plain "a.Soft" none 0 1).carrying ⟨0x2001⟩ ["a.Warm", "a.Soft"],
      (Definition.plain "a.Warm" none 0 2).carrying ⟨0x2001⟩ ["b.Cosy", "a.Soft"],
      .plain "a.Egg" none 0 3]
    let b := empty.recordAll definitions
    let g := (b.finishWith Hierarchy.components).1
    b.slots.Perm (empty.recordAll definitions).slots ∧
      (g.withAnnotation "b.Cosy").map ClassNode.name = ["a.Nest", "a.Soft", "a.Warm"] ∧
      ∃ types, Search.Ends g.annotationTypes ["b.Cosy"] ["b.Cosy"] types := by
  intro definitions b g
  have hsorted : b.sortedSlots = b.slots := List.mergeSort_of_pairwise (by decide)
  have hnames : (g.withAnnotation "b.Cosy").map ClassNode.name =
      ["a.Nest", "a.Soft", "a.Warm"] := by
    unfold g finishWith pending
    simp only [hsorted]
    decide +kernel
  obtain ⟨⟨types, hends, _⟩, _⟩ := annotations_carry_over_through_annotation_types
    Hierarchy.components definitions (List.Perm.refl b.slots) "b.Cosy"
  exact ⟨List.Perm.refl _, hnames, types, hends⟩

end GraphBuilder

end ClassAtlas
