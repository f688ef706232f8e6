-- The links of a finished graph from classes to their supertypes, told by the recorded definitions
-- alone. A link is cut if its supertype leads back to its class, so the links that stay lead in no
-- circle. The edges of the graph are the links to classes that were scanned, and the index holds
-- the links to all classes.
import ClassAtlas.Proofs.Graph.Dependencies
import ClassAtlas.Proofs.Graph.Index

namespace ClassAtlas

open Relation (TransGen ReflTransGen)

/-! ## The records alone -/

/-- There is a definition for that name. -/
def Scanned (definitions : List Definition) (name : String) : Prop :=
  ∃ d ∈ definitions, d.name = name

/-- The definition that counts for `a` names `b` as a supertype of that kind, and `b`, which need
not be scanned, does not lead back to `a`. -/
def Links (definitions : List Definition) (kind : EdgeKind) (a b : String) : Prop :=
  ∃ d, Counts definitions d ∧ d.name = a ∧ b ∈ d.record.supertypes kind ∧
    ¬ ReflTransGen (Extends definitions) b a

/-- A link of any kind leads from `a` to `b`. -/
def Rises (definitions : List Definition) (a b : String) : Prop :=
  ∃ kind, Links definitions kind a b

/-- A definition with other interfaces. -/
def Definition.implementing (d : Definition) (interfaces : List String) : Definition where
  record := { d.record with interfaces }
  provenance := d.provenance

section

variable {definitions : List Definition} {kind : EdgeKind} {a b c : String}

theorem isHierarchy_of_mem_supertypes {r : ClassRecord} (h : b ∈ r.supertypes kind) :
    kind.isHierarchy := by
  cases kind <;> first | rfl | cases h

theorem Links.isHierarchy (h : Links definitions kind a b) : kind.isHierarchy := by
  obtain ⟨d, _, _, hb, _⟩ := h
  exact isHierarchy_of_mem_supertypes hb

theorem Links.scanned (h : Links definitions kind a b) : Scanned definitions a := by
  obtain ⟨d, hd, hname, _, _⟩ := h
  exact ⟨d, hd.mem, hname⟩

theorem Rises.scanned (h : Rises definitions a b) : Scanned definitions a := by
  obtain ⟨kind, h⟩ := h
  exact h.scanned

/-- A class has one superclass at most. -/
theorem Links.unique (hb : Links definitions .superclass a b)
    (hc : Links definitions .superclass a c) : b = c := by
  obtain ⟨d, hd, hname, hb, _⟩ := hb
  obtain ⟨d', hd', hname', hc, _⟩ := hc
  obtain rfl := hd.unique hd' (hname.trans hname'.symm)
  exact Option.some.inj ((Option.mem_toList.mp hb).symm.trans (Option.mem_toList.mp hc))

theorem Rises.extends (h : Rises definitions a b) (hb : Scanned definitions b) :
    Extends definitions a b := by
  obtain ⟨kind, hlink⟩ := h
  obtain ⟨d, hd, hname, hmem, _⟩ := id hlink
  exact ⟨d, hd, hname, ClassRecord.namesSupertype_iff.mpr ⟨kind, hlink.isHierarchy, hmem⟩, hb⟩

/-- What leads up to a scanned class was scanned itself. -/
theorem extends_of_rises (h : ReflTransGen (Rises definitions) a b) (hb : Scanned definitions b) :
    Scanned definitions a ∧ ReflTransGen (Extends definitions) a b := by
  induction h using ReflTransGen.head_induction_on with
  | refl => exact ⟨hb, .refl⟩
  | head hac _ ih => exact ⟨hac.scanned, .head (hac.extends ih.1) ih.2⟩

/-- The links that were not cut lead in no circle. -/
theorem not_transGen_rises (a : String) : ¬ TransGen (Rises definitions) a a := by
  intro hcycle
  obtain ⟨b, hfirst, hback⟩ := TransGen.head'_iff.mp hcycle
  obtain ⟨kind, _, _, _, _, hkept⟩ := id hfirst
  exact hkept (extends_of_rises hback hfirst.scanned).2

theorem not_transGen_links (kind : EdgeKind) (a : String) :
    ¬ TransGen (Links definitions kind) a a := by
  intro hcycle
  exact not_transGen_rises a (TransGen.mono (fun _ _ hlink => ⟨kind, hlink⟩) a a hcycle)

/-- On a way from scanned class to scanned class all between were scanned. -/
theorem transGen_scanned {R : String → String → Prop} (hR : ∀ a b, R a b → Scanned definitions a)
    (hb : Scanned definitions b) :
    TransGen (fun a c => R a c ∧ Scanned definitions c) a b ↔ TransGen R a b := by
  constructor
  · exact TransGen.mono (fun _ _ hstep => hstep.1) a b
  · intro h
    induction h using TransGen.head_induction_on with
    | single hab => exact .single ⟨hab, hb⟩
    | head hac hcb ih =>
      obtain ⟨d, hcd, _⟩ := TransGen.head'_iff.mp hcb
      exact .head ⟨hac, hR _ d hcd⟩ ih

/-- A supertype that was not scanned leads nowhere. -/
theorem not_extends_of_not_scanned (hb : ¬ Scanned definitions b) (ha : Scanned definitions a) :
    ¬ ReflTransGen (Extends definitions) b a := by
  intro hback
  rcases ReflTransGen.cases_head hback with rfl | ⟨c, ⟨d, hd, hname, _, _⟩, _⟩
  · exact hb ha
  · exact hb ⟨d, hd.mem, hname⟩

end

/-! ## The finished graph -/

namespace GraphBuilder

open Hierarchy (FindsComponents)

section

variable {split : List (String × List String) → List (List String)} {b : GraphBuilder}

variable {definitions : List Definition} (hwalk : b.slots.Perm (empty.recordAll definitions).slots)

include hwalk

theorem mem_dangling_iff {x : DanglingEdge} : x ∈ (b.finishWith split).1.dangling ↔
    ∃ n ∈ (b.finishWith split).1.nodes, n.name = x.source ∧ x.edge ∈ n.record.edges ∧
      x.edge.target ∉ (b.finishWith split).1.nodes.map ClassNode.name := by
  rw [names_finishWith, nodes_finishWith (holds_walk hwalk), dangling_finishWith (holds_walk hwalk)]
  simp only [List.mem_flatMap, List.mem_map, List.mem_filter, Bool.not_eq_true',
    ← Bool.not_eq_true, List.contains_iff_mem, exists_exists_and_eq_and]
  constructor
  · rintro ⟨d, hd, e, ⟨he, htarget⟩, rfl⟩
    exact ⟨d, hd, rfl, he, by simpa using htarget⟩
  · rintro ⟨d, hd, hname, he, htarget⟩
    refine ⟨d, hd, x.edge, ⟨he, by simpa using htarget⟩, ?_⟩
    exact congrArg (DanglingEdge.mk · x.edge) hname

theorem scanned_iff {name : String} : Scanned definitions name ↔
    name ∈ (b.finishWith split).1.nodes.map ClassNode.name := (mem_names_iff hwalk).symm

theorem scanned_node {n : ClassNode} (hn : n ∈ (b.finishWith split).1.nodes) :
    Scanned definitions n.name := (scanned_iff hwalk).mpr (List.mem_map.mpr ⟨n, hn, rfl⟩)

variable (hsplit : FindsComponents split)

include hsplit

/-- The supertype edges of the graph are the links to scanned classes. -/
theorem exists_kept_edge_iff {kind : EdgeKind} (hkind : kind.isHierarchy) {a c : String} :
    (∃ n ∈ (b.finishWith split).1.nodes, n.name = a ∧ ∃ e ∈ n.edges, e.kind = kind ∧ e.target = c) ↔
      Links definitions kind a c ∧ Scanned definitions c := by
  have hedge := fun {n : ClassNode} (hn : n ∈ (b.finishWith split).1.nodes) =>
    exists_supertype_edge_iff hwalk hsplit hn hkind (x := c)
  have hscanned : Scanned definitions c ↔ c ∈ (b.finishWith split).1.nodes.map ClassNode.name :=
    scanned_iff hwalk
  rw [hscanned]
  constructor
  · rintro ⟨n, hn, rfl, he⟩
    obtain ⟨hsupertype, hscanned, hcut⟩ := (hedge hn).mp he
    exact ⟨⟨n.definition, counts_node hwalk hn, rfl, hsupertype, hcut⟩, hscanned⟩
  · rintro ⟨⟨d, hd, rfl, hsupertype, hcut⟩, hscanned⟩
    obtain ⟨n, hn, rfl⟩ : ∃ n ∈ (b.finishWith split).1.nodes, n.definition = d :=
      exists_node hwalk hd
    exact ⟨n, hn, rfl, (hedge hn).mpr ⟨hsupertype, hscanned, hcut⟩⟩

/-- Under a name the index holds the classes with a link to it. -/
theorem mem_namesAt_supertypes {kind : EdgeKind} (hkind : kind.isHierarchy) {a c : String} :
    a ∈ (b.finishWith split).1.namesAt
        (QueryIndex.lookUp (QueryIndex.supertypes kind (b.finishWith split).1) c) ↔
      Links definitions kind a c := by
  have hnames : ((b.finishWith split).1.nodes.map ClassNode.name).Nodup := nodup_names hwalk
  have hedge := fun a c => exists_kept_edge_iff hwalk hsplit hkind (a := a) (c := c)
  simp only [ClassGraph.mem_namesAt, QueryIndex.mem_lookUp, QueryIndex.mem_supertypes]
  constructor
  · rintro ⟨i, ⟨m, hm, hmedge⟩ | ⟨x, hx, hi, rfl, rfl⟩, n, hn, rfl⟩
    · obtain rfl := Option.some.inj (hm.symm.trans hn)
      exact ((hedge m.name c).mp ⟨m, List.mem_of_getElem? hm, rfl, hmedge⟩).1
    · obtain ⟨m, hm, hsource, hxedge, htarget⟩ := (mem_dangling_iff hwalk).mp hx
      obtain ⟨n', hn', hname⟩ := (ClassGraph.position?_eq_some_iff hnames).mp hi
      obtain rfl := Option.some.inj (hn'.symm.trans hn)
      have hcounts := counts_node hwalk hm
      refine ⟨m.definition, hcounts, hsource.trans hname.symm,
        (ClassRecord.exists_edge_of_kind_iff hkind).mp ⟨x.edge, hxedge, rfl, rfl⟩, ?_⟩
      refine not_extends_of_not_scanned (fun hscanned => htarget ?_)
        ⟨_, hcounts.mem, hsource.trans hname.symm⟩
      exact (scanned_iff hwalk).mp hscanned
  · intro hlink
    by_cases hscanned : Scanned definitions c
    · obtain ⟨n, hn, hname, hnedge⟩ := (hedge a c).mpr ⟨hlink, hscanned⟩
      obtain ⟨i, hi⟩ := List.mem_iff_getElem?.mp hn
      exact ⟨i, Or.inl ⟨n, hi, hnedge⟩, n, hi, hname⟩
    · obtain ⟨d, hd, hname, hsupertype, _⟩ := hlink
      obtain ⟨n, hn, rfl⟩ : ∃ n ∈ (b.finishWith split).1.nodes, n.definition = d :=
        exists_node hwalk hd
      obtain ⟨e, he, hkind', htarget⟩ := (ClassRecord.exists_edge_of_kind_iff hkind).mpr hsupertype
      obtain ⟨i, hi⟩ := List.mem_iff_getElem?.mp hn
      have hdangling : ⟨n.name, e⟩ ∈ (b.finishWith split).1.dangling := by
        refine (mem_dangling_iff hwalk).mpr ⟨n, hn, rfl, he, ?_⟩
        rw [htarget, ← scanned_iff hwalk]
        exact hscanned
      have hposition : (b.finishWith split).1.position? n.name = some i :=
        (ClassGraph.position?_eq_some_iff hnames).mpr ⟨n, hi, rfl⟩
      exact ⟨i, Or.inr ⟨_, hdangling, hposition, hkind', htarget⟩, n, hi, hname⟩

end

end GraphBuilder

end ClassAtlas
