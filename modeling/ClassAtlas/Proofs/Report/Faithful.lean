-- What a report tells of a graph. A compact report and a full one are read back as one outline,
-- in which classes are meant by their positions; put back into names, it is the finished graph.
import ClassAtlas.Proofs.Graph.Conservation
import ClassAtlas.Proofs.Graph.Index
import ClassAtlas.Proofs.Graph.Links
import ClassAtlas.Report

namespace ClassAtlas

/-! ## Reading values -/

namespace JsonValue

/-- The value of a field of an object. -/
def field? (name : String) : JsonValue → Option JsonValue
  | object fields => fields.lookup name
  | _ => none

def items? : JsonValue → Option (List JsonValue)
  | array items => some items
  | _ => none

def number? : JsonValue → Option Nat
  | number value => some value
  | _ => none

def string? : JsonValue → Option String
  | string value => some value
  | _ => none

/-- The items of an array that is the value of a field, each read. -/
def each? {α : Type} (name : String) (read : JsonValue → Option α) (value : JsonValue) :
    Option (List α) := do
  let array ← value.field? name
  let items ← array.items?
  items.mapM read

end JsonValue

theorem mapM_map_eq_filterMap {α β γ : Type} {read : β → Option γ} {write : α → β} {view : α → Option γ}
    {items : List α} (h : ∀ a ∈ items, ∃ c, view a = some c ∧ read (write a) = some c) :
    (items.map write).mapM read = some (items.filterMap view) := by
  induction items with
  | nil => rfl
  | cons a rest ih =>
    have hrest := ih fun b hb => h b (by simp [hb])
    obtain ⟨c, hview, hread⟩ := h a (by simp)
    rw [List.map_cons, List.mapM_cons, hread, hrest, List.filterMap_cons_some hview]
    rfl

theorem mapM_map_eq_some {α β γ : Type} {read : β → Option γ} {write : α → β} {view : α → γ}
    {items : List α} (h : ∀ a ∈ items, read (write a) = some (view a)) :
    (items.map write).mapM read = some (items.map view) := by
  rw [mapM_map_eq_filterMap fun a ha => ⟨view a, rfl, h a ha⟩, List.filterMap_eq_map']

namespace EdgeKind

def all : List EdgeKind :=
  [superclass, interface, annotatedBy, fieldType, parameterType, returnType, thrownType, mention]

/-- The kind with a code. -/
def ofCode? (code : Nat) : Option EdgeKind := all.find? fun kind => Report.edgeCode kind = code

/-- The kind with a name. -/
def ofLabel? (label : String) : Option EdgeKind := all.find? fun kind => kind.label = label

theorem ofCode?_edgeCode (kind : EdgeKind) : ofCode? (Report.edgeCode kind) = some kind := by
  cases kind <;> rfl

theorem ofLabel?_label (kind : EdgeKind) : ofLabel? kind.label = some kind := by
  cases kind <;> decide

end EdgeKind

/-! ## Reading reports -/

namespace Report

/-- What a report tells of a graph: the names of the classes, the edges between them and those
that dangle, and the numbers of classes and of edges. The ends of an edge are positions. -/
structure Outline where
  names : List String
  edges : List (Nat × Nat × EdgeKind)
  dangling : List (Nat × String × EdgeKind)
  classCount : Nat
  edgeCount : Nat

/-- The edges with the names of the classes at their ends. -/
def Outline.namedEdges (o : Outline) : List (Option String × Option String × EdgeKind) :=
  o.edges.map fun (source, target, kind) => (o.names[source]?, o.names[target]?, kind)

/-- The dangling edges with the names of the classes at which they start. -/
def Outline.namedDangling (o : Outline) : List (Option String × String × EdgeKind) :=
  o.dangling.map fun (source, target, kind) => (o.names[source]?, target, kind)

def readName? (value : JsonValue) : Option String := do
  let name ← value.field? "n"
  name.string?

/-- An edge of a compact report is an array, and one of a full report an object. -/
def readEdge? : JsonValue → Option (Nat × Nat × EdgeKind)
  | .array [.number source, .number target, .number code] => do
    return (source, target, ← EdgeKind.ofCode? code)
  | value => do
    let source ← (← value.field? "src").number?
    let target ← (← value.field? "tgt").number?
    let label ← (← value.field? "type").string?
    return (source, target, ← EdgeKind.ofLabel? label)

def readDangling? : JsonValue → Option (Nat × String × EdgeKind)
  | .array [.number source, .string target, .number code] => do
    return (source, target, ← EdgeKind.ofCode? code)
  | _ => none

/-- The outline of a report, if it is one. -/
def read? (value : JsonValue) : Option Outline := do
  let names ← value.each? "classes" readName?
  let edges ← value.each? "edges" readEdge?
  let dangling ← value.each? "dangling" readDangling?
  let numbers ← value.field? "meta"
  let classCount ← (← numbers.field? "classes").number?
  let edgeCount ← (← numbers.field? "edges").number?
  return ⟨names, edges, dangling, classCount, edgeCount⟩

theorem readName?_classJson (style : Style) (node : ClassNode) :
    readName? (classJson style node) = some node.name := by
  cases style with
  | compact => rfl
  | full =>
    unfold readName? classJson details
    cases node.provenance.module <;> rfl

theorem readEdge?_edgeJson (style : Style) (source target : Nat) (e : Edge) :
    readEdge? (edgeJson style source target e) = some (source, target, e.kind) := by
  cases style with
  | compact => simp [edgeJson, readEdge?, EdgeKind.ofCode?_edgeCode]
  | full =>
    have hread : readEdge? (edgeJson .full source target e) =
        (EdgeKind.ofLabel? e.kind.label).bind fun kind => some (source, target, kind) := rfl
    rw [hread, EdgeKind.ofLabel?_label, Option.bind_some]

theorem readDangling?_danglingJson {g : ClassGraph} {d : DanglingEdge} {i : Nat}
    (h : g.position? d.source = some i) :
    readDangling? (danglingJson g d) = some (i, d.edge.target, d.edge.kind) := by
  simp [danglingJson, h, readDangling?, EdgeKind.ofCode?_edgeCode]

/-- The outline of a graph. -/
def outline (g : ClassGraph) : Outline where
  names := g.nodes.map ClassNode.name
  edges := g.placedEdges.map fun (i, j, e) => (i, j, e.kind)
  dangling := g.dangling.filterMap fun d =>
    (g.position? d.source).map fun i => (i, d.edge.target, d.edge.kind)
  classCount := g.nodes.length
  edgeCount := g.edgeCount

end Report

/-! ## Positions and names -/

namespace ClassGraph

open Report (outline)

variable {g : ClassGraph} (hnames : (g.nodes.map ClassNode.name).Nodup)

include hnames

theorem exists_position {name : String} (h : name ∈ g.nodes.map ClassNode.name) :
    ∃ i, g.position? name = some i := by
  obtain ⟨n, hn, hname⟩ := List.mem_map.mp h
  obtain ⟨i, hi⟩ := List.mem_iff_getElem?.mp hn
  exact ⟨i, (position?_eq_some_iff hnames).mpr ⟨n, hi, hname⟩⟩

theorem name_at_position {name : String} {i : Nat} (h : g.position? name = some i) :
    (g.nodes.map ClassNode.name)[i]? = some name := by
  obtain ⟨n, hn, hname⟩ := (position?_eq_some_iff hnames).mp h
  rw [List.getElem?_map, hn, Option.map_some, hname]

theorem position_lt {name : String} {i : Nat} (h : g.position? name = some i) :
    i < (g.nodes.map ClassNode.name).length :=
  (List.getElem?_eq_some_iff.mp (name_at_position hnames h)).1

theorem position_at {n : ClassNode} {i : Nat} (h : (n, i) ∈ g.nodes.zipIdx) :
    g.position? n.name = some i :=
  (position?_eq_some_iff hnames).mpr ⟨n, by simpa using List.mem_zipIdx_iff_getElem?.mp h, rfl⟩

theorem placedEdges_in_range {i j : Nat} {e : Edge} (h : (i, j, e) ∈ g.placedEdges) :
    i < (g.nodes.map ClassNode.name).length ∧ j < (g.nodes.map ClassNode.name).length := by
  obtain ⟨⟨n, k⟩, hn, hlink⟩ := List.mem_flatMap.mp h
  obtain ⟨x, _, hx⟩ := List.mem_filterMap.mp hlink
  obtain ⟨l, hposition, heq⟩ := Option.map_eq_some_iff.mp hx
  cases heq
  exact ⟨position_lt hnames (position_at hnames hn), position_lt hnames hposition⟩

/-- The edges of a report are those of the classes, at the positions of their ends. -/
theorem edgesJson_eq_map (style : Report.Style) :
    Report.edgesJson style g = g.placedEdges.map fun (i, j, e) => Report.edgeJson style i j e := by
  have hnode : ∀ x ∈ g.nodes.zipIdx,
      ((g.position? x.1.name).toList.flatMap fun source => x.1.edges.filterMap fun e =>
        (g.position? e.target).map fun target => Report.edgeJson style source target e) =
      (x.1.edges.filterMap fun e => (g.position? e.target).map fun j => (x.2, j, e)).map
        fun (i, j, e) => Report.edgeJson style i j e := by
    intro x hx
    rw [position_at hnames hx, List.map_filterMap]
    simp only [Option.toList_some, List.flatMap_singleton, Option.map_map, Function.comp_def]
  calc Report.edgesJson style g
      = (g.nodes.zipIdx.map Prod.fst).flatMap fun n => (g.position? n.name).toList.flatMap
          fun source => n.edges.filterMap fun e =>
            (g.position? e.target).map fun target => Report.edgeJson style source target e := by
        rw [List.zipIdx_map_fst]
        rfl
    _ = g.nodes.zipIdx.flatMap fun x =>
          (x.1.edges.filterMap fun e => (g.position? e.target).map fun j => (x.2, j, e)).map
            fun (i, j, e) => Report.edgeJson style i j e := by
        rw [List.flatMap_map]
        exact List.flatMap_congr hnode
    _ = g.placedEdges.map fun (i, j, e) => Report.edgeJson style i j e := List.map_flatMap.symm

theorem read?_json {result : ScanResult} (hresult : result.graph = g)
    (hsources : ∀ d ∈ g.dangling, d.source ∈ g.nodes.map ClassNode.name) (style : Report.Style)
    (milliseconds : Nat) : Report.read? (Report.json style milliseconds result) = some (outline g) := by
  subst hresult
  have hclasses : (result.graph.nodes.map (Report.classJson style)).mapM Report.readName? =
      some (result.graph.nodes.map ClassNode.name) :=
    mapM_map_eq_some fun n _ => Report.readName?_classJson style n
  have hedges : (Report.edgesJson style result.graph).mapM Report.readEdge? =
      some (outline result.graph).edges := by
    rw [edgesJson_eq_map hnames]
    exact mapM_map_eq_some fun x _ => Report.readEdge?_edgeJson style x.1 x.2.1 x.2.2
  have hdangling : (result.graph.dangling.map (Report.danglingJson result.graph)).mapM
      Report.readDangling? = some (outline result.graph).dangling := by
    refine mapM_map_eq_filterMap fun d hd => ?_
    obtain ⟨i, hi⟩ := exists_position hnames (hsources d hd)
    exact ⟨_, by rw [hi]; rfl, Report.readDangling?_danglingJson hi⟩
  have hread : Report.read? (Report.json style milliseconds result) = (do
      let names ← (result.graph.nodes.map (Report.classJson style)).mapM Report.readName?
      let edges ← (Report.edgesJson style result.graph).mapM Report.readEdge?
      let dangling ← (result.graph.dangling.map (Report.danglingJson result.graph)).mapM
        Report.readDangling?
      return ⟨names, edges, dangling, result.graph.nodes.length, result.graph.edgeCount⟩) := rfl
  rw [hread, hclasses, hedges, hdangling]
  rfl

theorem namedEdges_outline (htargets : ∀ n ∈ g.nodes, ∀ e ∈ n.edges, e.target ∈ g.nodes.map ClassNode.name) :
    (outline g).namedEdges =
      g.nodes.flatMap fun n => n.edges.map fun e => (some n.name, some e.target, e.kind) := by
  have hnode : ∀ x ∈ g.nodes.zipIdx,
      ((x.1.edges.filterMap fun e => (g.position? e.target).map fun j => (x.2, j, e)).map
        fun l => ((g.nodes.map ClassNode.name)[l.1]?, (g.nodes.map ClassNode.name)[l.2.1]?, l.2.2.kind)) =
      x.1.edges.map fun e => (some x.1.name, some e.target, e.kind) := by
    intro x hx
    have hsource : (g.nodes.map ClassNode.name)[x.2]? = some x.1.name :=
      name_at_position hnames (position_at hnames hx)
    rw [List.map_filterMap]
    refine (List.filterMap_congr fun e he => ?_).trans
      (congrFun List.filterMap_eq_map' x.1.edges)
    obtain ⟨j, hj⟩ := exists_position hnames (htargets x.1 (List.fst_mem_of_mem_zipIdx hx) e he)
    rw [hj, Option.map_some, Option.map_some, hsource, name_at_position hnames hj]
  calc (outline g).namedEdges
      = g.placedEdges.map fun l =>
          ((g.nodes.map ClassNode.name)[l.1]?, (g.nodes.map ClassNode.name)[l.2.1]?, l.2.2.kind) :=
        List.map_map
    _ = g.nodes.zipIdx.flatMap fun x => x.1.edges.map fun e => (some x.1.name, some e.target, e.kind) := by
        unfold placedEdges
        rw [List.map_flatMap]
        exact List.flatMap_congr hnode
    _ = (g.nodes.zipIdx.map Prod.fst).flatMap
          fun n => n.edges.map fun e => (some n.name, some e.target, e.kind) := by rw [List.flatMap_map]
    _ = _ := by rw [List.zipIdx_map_fst]

theorem namedDangling_outline (hsources : ∀ d ∈ g.dangling, d.source ∈ g.nodes.map ClassNode.name) :
    (outline g).namedDangling = g.dangling.map fun d => (some d.source, d.edge.target, d.edge.kind) := by
  unfold Report.Outline.namedDangling outline
  rw [List.map_filterMap]
  refine (List.filterMap_congr fun d hd => ?_).trans (congrFun List.filterMap_eq_map' g.dangling)
  obtain ⟨i, hi⟩ := exists_position hnames (hsources d hd)
  simp only [hi, Option.map_some, name_at_position hnames hi]

end ClassGraph

/-! ## The finished graph -/

namespace GraphBuilder

theorem target_mem_names {split : List (String × List String) → List (List String)} {b : GraphBuilder}
    {definitions : List Definition} (hwalk : b.slots.Perm (empty.recordAll definitions).slots)
    {n : ClassNode} (hn : n ∈ (b.finishWith split).1.nodes) {e : Edge} (he : e ∈ n.edges) :
    e.target ∈ (b.finishWith split).1.nodes.map ClassNode.name := by
  rw [names_finishWith]
  rw [nodes_finishWith (holds_walk hwalk)] at hn
  obtain ⟨d, _, rfl⟩ := List.mem_map.mp hn
  have hkept := (List.mem_filter.mp he).2
  exact List.contains_iff_mem.mp (Bool.and_eq_true_iff.mp hkept).1

/-- For all recorded definitions, however the cycles of supertypes were found, both reports of the
finished graph read as one outline, whatever else they tell. Its names are those of the classes in
the order of their arrival, each of them once; all positions are positions of classes; both counts
are right; and with names for positions, the edges and the dangling edges are those of the graph,
in its order. -/
theorem both_reports_tell_the_graph (split : List (String × List String) → List (List String))
    (definitions : List Definition) {b : GraphBuilder}
    (hwalk : b.slots.Perm (empty.recordAll definitions).slots) {result : ScanResult}
    (hresult : result.graph = (b.finishWith split).1) :
    let g := result.graph
    ∃ o : Report.Outline,
      (∀ style milliseconds, Report.read? (Report.json style milliseconds result) = some o) ∧
      o.names = g.nodes.map ClassNode.name ∧ g.InArrivalOrder g.nodes ∧ o.names.Nodup ∧
      (∀ x ∈ o.edges, x.1 < o.names.length ∧ x.2.1 < o.names.length) ∧
      (∀ x ∈ o.dangling, x.1 < o.names.length) ∧
      o.classCount = o.names.length ∧ o.edgeCount = o.edges.length ∧
      o.namedEdges = (g.nodes.flatMap fun n =>
        n.edges.map fun e => (some n.name, some e.target, e.kind)) ∧
      o.namedDangling = g.dangling.map fun d => (some d.source, d.edge.target, d.edge.kind) := by
  intro g
  have hnames : (g.nodes.map ClassNode.name).Nodup := by
    simp only [g, hresult]
    exact nodup_names hwalk
  have hsources : ∀ d ∈ g.dangling, d.source ∈ g.nodes.map ClassNode.name := by
    intro d hd
    simp only [g, hresult] at hd ⊢
    exact source_mem_names hwalk hd
  have htargets : ∀ n ∈ g.nodes, ∀ e ∈ n.edges, e.target ∈ g.nodes.map ClassNode.name := by
    intro n hn e he
    simp only [g, hresult] at hn ⊢
    exact target_mem_names hwalk hn he
  refine ⟨Report.outline g, ClassGraph.read?_json hnames rfl hsources, rfl, ?_, hnames, ?_, ?_, ?_, ?_,
    ClassGraph.namedEdges_outline hnames htargets, ClassGraph.namedDangling_outline hnames hsources⟩
  · have horder : (b.finishWith split).1.InArrivalOrder (b.finishWith split).1.nodes :=
      inArrivalOrder hwalk (List.Sublist.refl _)
    rwa [← hresult] at horder
  · intro x hx
    obtain ⟨⟨i, j, e⟩, hlink, rfl⟩ := List.mem_map.mp hx
    exact ClassGraph.placedEdges_in_range hnames hlink
  · intro x hx
    obtain ⟨d, _, hd⟩ := List.mem_filterMap.mp hx
    obtain ⟨i, hi, rfl⟩ := Option.map_eq_some_iff.mp hd
    exact ClassGraph.position_lt hnames hi
  · exact (List.length_map _).symm
  · have hlinks : g.links = g.placedEdges := by
      simp only [g, hresult]
      exact links_finishWith
    exact (congrArg List.length hlinks).trans (List.length_map _).symm

/-- A hen that implements an interface, which comes behind it, and extends a bird that was not
scanned. -/
theorem a_hen_is_told_with_its_interface :
    let definitions := [(Definition.plain "a.Hen" (some "b.Bird") 0 0).implementing ["a.Small"],
      .plain "a.Small" none 0 1]
    let b := empty.recordAll definitions
    let result : ScanResult := ⟨(b.finishWith Hierarchy.components).1, [], [], .complete, 2, 0⟩
    b.slots.Perm (empty.recordAll definitions).slots ∧
      ∃ o : Report.Outline,
        (∀ style milliseconds, Report.read? (Report.json style milliseconds result) = some o) ∧
        o.names = ["a.Hen", "a.Small"] ∧
        o.namedEdges = [(some "a.Hen", some "a.Small", .interface)] ∧
        o.namedDangling = [(some "a.Hen", "b.Bird", .superclass)] := by
  intro definitions b result
  have hsorted : b.sortedSlots = b.slots := List.mergeSort_of_pairwise (by decide)
  have hnodes : result.graph.nodes.map ClassNode.name = ["a.Hen", "a.Small"] ∧
      (result.graph.nodes.flatMap fun n => n.edges.map fun e => (some n.name, some e.target, e.kind)) =
        [(some "a.Hen", some "a.Small", .interface)] ∧
      (result.graph.dangling.map fun d => (some d.source, d.edge.target, d.edge.kind)) =
        [(some "a.Hen", "b.Bird", .superclass)] := by
    unfold result finishWith pending
    simp only [hsorted]
    decide +kernel
  obtain ⟨o, hread, hnames, _, _, _, _, _, _, hedges, hdangling⟩ :=
    both_reports_tell_the_graph Hierarchy.components definitions (List.Perm.refl b.slots)
      (rfl : result.graph = (b.finishWith Hierarchy.components).1)
  exact ⟨List.Perm.refl _, o, hread, hnames.trans hnodes.1, hedges.trans hnodes.2.1,
    hdangling.trans hnodes.2.2⟩

end GraphBuilder

end ClassAtlas
