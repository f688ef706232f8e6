-- Private declarations do not show. The open edges of a record are the edges of the record
-- without its private parts, and supertype edges are open. So two runs that differ in private
-- parts give graphs that answer alike to everyone who asks from outside.
import ClassAtlas.Proofs.Graph.Dependencies

namespace ClassAtlas

/-! ## Without private parts -/

/-- Whether an edge stands where another class may see it. -/
def Edge.isOpen (e : Edge) : Bool := e.origin.visibility ≠ .priv

/-- A record without its private members and without what its constant pool names. -/
def ClassRecord.withoutPrivate (r : ClassRecord) : ClassRecord :=
  { r with
    fields := r.fields.filter fun f => f.visibility ≠ .priv
    methods := r.methods.filter fun m => m.visibility ≠ .priv
    referencedClasses := [] }

def Definition.withoutPrivate (d : Definition) : Definition :=
  { d with record := d.record.withoutPrivate }

/-- A class of a graph without its private parts and without the edges that stand there. -/
def ClassNode.withoutPrivate (n : ClassNode) : ClassNode :=
  { n with record := n.record.withoutPrivate, edges := n.edges.filter Edge.isOpen }

theorem Definition.name_eq {d d' : Definition} (h : d'.withoutPrivate = d.withoutPrivate) :
    d'.name = d.name := by
  have hname : d'.withoutPrivate.name = d.withoutPrivate.name := by rw [h]
  exact hname

theorem Definition.provenance_eq {d d' : Definition} (h : d'.withoutPrivate = d.withoutPrivate) :
    d'.provenance = d.provenance := by
  have hprovenance : d'.withoutPrivate.provenance = d.withoutPrivate.provenance := by rw [h]
  exact hprovenance

theorem Definition.record_eq {d d' : Definition} (h : d'.withoutPrivate = d.withoutPrivate) :
    d'.record.withoutPrivate = d.record.withoutPrivate := by
  have hrecord : d'.withoutPrivate.record = d.withoutPrivate.record := by rw [h]
  exact hrecord

theorem ClassNode.name_eq {n n' : ClassNode} (h : n.withoutPrivate = n'.withoutPrivate) :
    n.name = n'.name := by
  have hname : n.withoutPrivate.name = n'.withoutPrivate.name := by rw [h]
  exact hname

theorem ClassNode.package_eq {n n' : ClassNode} (h : n.withoutPrivate = n'.withoutPrivate) :
    n.record.package = n'.record.package := by
  have hpackage : n.withoutPrivate.record.package = n'.withoutPrivate.record.package := by rw [h]
  exact hpackage

/-! ## The open edges of a record -/

section

variable {owner : String}

/-- Only an edge at the same declaration covers a mention, so private edges cover no open one. -/
theorem filter_addTo (edges : List Edge) (new : Edge) :
    (Edge.addTo owner edges new).filter Edge.isOpen =
      if new.isOpen then Edge.addTo owner (edges.filter Edge.isOpen) new
      else edges.filter Edge.isOpen := by
  have hcovers : new.isOpen → (edges.any fun old => old.covers new) =
      (edges.filter Edge.isOpen).any fun old => old.covers new := by
    intro hopen
    rw [List.any_filter]
    congr 1
    funext old
    cases hold : old.covers new with
    | false => simp
    | true =>
      have horigin : old.isOpen = new.isOpen := by
        rw [Edge.isOpen, Edge.isOpen, (covers_iff.mp hold).2.1]
      simp [horigin, hopen]
  cases hopen : new.isOpen with
  | false =>
    unfold Edge.addTo
    split
    · rfl
    · simp [hopen]
  | true =>
    unfold Edge.addTo
    rw [hcovers hopen, if_pos rfl]
    split
    · rfl
    · simp [hopen]

theorem filter_foldl_addTo (mentions edges : List Edge) :
    (mentions.foldl (Edge.addTo owner) edges).filter Edge.isOpen =
      (mentions.filter Edge.isOpen).foldl (Edge.addTo owner) (edges.filter Edge.isOpen) := by
  induction mentions generalizing edges with
  | nil => rfl
  | cons new rest ih =>
    rw [List.foldl_cons, ih, filter_addTo, List.filter_cons]
    split
    · rw [List.foldl_cons]
    · rfl

end

/-- The open mentions of some members are the mentions of the members that are not private. -/
theorem filter_flatMap_members {α : Type} (members : List α) (mentions : α → List Edge)
    (visibility : α → Visibility)
    (h : ∀ m, ∀ e ∈ mentions m, e.origin.visibility = visibility m) :
    (members.flatMap mentions).filter Edge.isOpen =
      (members.filter fun m => visibility m ≠ .priv).flatMap mentions := by
  induction members with
  | nil => rfl
  | cons m rest ih =>
    rw [List.flatMap_cons, List.filter_append, ih, List.filter_cons]
    by_cases hpriv : visibility m = .priv
    · have hnone : (mentions m).filter Edge.isOpen = [] :=
        List.filter_eq_nil_iff.mpr fun e he => by simp [Edge.isOpen, h m e he, hpriv]
      simp [hnone, hpriv]
    · have hall : (mentions m).filter Edge.isOpen = mentions m :=
        List.filter_eq_self.mpr fun e he => by simp [Edge.isOpen, h m e he, hpriv]
      simp [hall, hpriv]

namespace ClassRecord

theorem filter_declaredMentions (r : ClassRecord) :
    r.declaredMentions.filter Edge.isOpen = r.withoutPrivate.declaredMentions := by
  have hheader : r.headerMentions.filter Edge.isOpen = r.headerMentions :=
    List.filter_eq_self.mpr fun e he => by
      rw [Edge.isOpen, ((tells_headerMentions r).1 e he).1]
      rfl
  have hfields := filter_flatMap_members r.fields FieldRecord.mentions
    FieldRecord.visibility fun f e he => by
      rw [(f.tells_mentions.1 e he).1]
      rfl
  have hmethods := filter_flatMap_members r.methods MethodRecord.mentions
    MethodRecord.visibility fun m e he => by
      rw [(m.tells_mentions.1 e he).1]
      rfl
  unfold declaredMentions
  rw [List.filter_append, List.filter_append, hheader, hfields, hmethods]
  rfl

/-- The open edges of a record are the edges of the record without its private parts. -/
theorem filter_edges (r : ClassRecord) : r.edges.filter Edge.isOpen = r.withoutPrivate.edges := by
  have hbody : ∀ names, (mentionsOf .mention .body names).filter Edge.isOpen = [] := fun names =>
    List.filter_eq_nil_iff.mpr fun e he => by
      rw [Edge.isOpen, (mem_mentionsOf.mp he).2.2]
      decide
  unfold edges
  rw [filter_foldl_addTo, hbody, filter_foldl_addTo, filter_declaredMentions]
  rfl

/-- A supertype stands in the header, and so its edge is open. -/
theorem isOpen_of_isHierarchy {r : ClassRecord} {e : Edge} (he : e ∈ r.edges)
    (hkind : e.kind.isHierarchy) : e.isOpen := by
  have hheader := mem_headerMentions (mem_declaredMentions he hkind) hkind
  rw [Edge.isOpen, ((tells_headerMentions r).1 e hheader).1]
  rfl

end ClassRecord

/-! ## Graphs that look alike from outside -/

/-- What an asker sees is open. -/
theorem Asker.isOpen_of_sees {asker : Asker} {declaring : String} {e : Edge}
    (h : asker.sees declaring e) : e.isOpen := by
  unfold Asker.sees at h
  unfold Edge.isOpen
  cases hvisibility : e.origin.visibility with
  | priv => simp [hvisibility] at h
  | pub => decide
  | prot => decide
  | pkg => decide

/-- A filter in front of a stricter one changes nothing. -/
theorem filter_of_imp {α : Type} {loose strict : α → Bool} {l : List α}
    (h : ∀ x ∈ l, strict x → loose x) : (l.filter loose).filter strict = l.filter strict := by
  rw [List.filter_filter]
  apply List.filter_congr
  intro x hx
  cases hstrict : strict x with
  | false => rfl
  | true => simp [h x hx hstrict]

theorem Asker.filter_isOpen_sees (asker : Asker) (declaring : String) (edges : List Edge) :
    (edges.filter Edge.isOpen).filter (asker.sees declaring) =
      edges.filter (asker.sees declaring) := by
  apply filter_of_imp
  intro e _ hsees
  exact isOpen_of_sees hsees

/-- What an ancestor adds to the dependencies of an asker: its name and what the asker sees. -/
def ClassNode.shown (asker : Asker) (ancestor : ClassNode) : List String :=
  ancestor.name :: (ancestor.edges.filter (asker.sees ancestor.record.package)).map Edge.target

theorem ClassNode.flatMap_shown (asker : Asker) (all : List ClassNode) :
    (all.map ClassNode.withoutPrivate).flatMap (ClassNode.shown asker) =
      all.flatMap (ClassNode.shown asker) := by
  rw [List.flatMap_map]
  refine List.flatMap_congr fun n _ => ?_
  show n.name :: ((n.edges.filter Edge.isOpen).filter (asker.sees n.record.package)).map Edge.target = _
  rw [asker.filter_isOpen_sees]
  rfl

namespace ClassGraph

theorem dependencyNames_accessibleOnly (g : ClassGraph) (n : ClassNode) :
    g.dependencyNames n .accessibleOnly = n.edges.map Edge.target ++
      (g.ancestors n.name).flatMap (ClassNode.shown (Asker.subtype n.name)) := rfl

/-- Supertypes are in the open. -/
def SupertypesOpen (g : ClassGraph) : Prop :=
  ∀ n ∈ g.nodes, ∀ e ∈ n.edges, e.kind.isHierarchy → e.isOpen

/-- Two graphs with the same classes but for their private parts, maybe in another order. -/
structure AlikeOutside (g g' : ClassGraph) : Prop where
  size : g.nodes.length = g'.nodes.length
  node : ∀ name, (g.get? name).map ClassNode.withoutPrivate =
    (g'.get? name).map ClassNode.withoutPrivate
  left : g.SupertypesOpen
  right : g'.SupertypesOpen

theorem filter_targets {g : ClassGraph} (h : g.SupertypesOpen) (name : String) :
    ((g.outgoing name).filter Edge.isOpen).filter (fun e => e.kind.isHierarchy) =
      (g.outgoing name).filter fun e => e.kind.isHierarchy := by
  apply filter_of_imp
  intro e he hkind
  unfold outgoing at he
  split at he
  · rename_i n hget
    exact h n (List.mem_of_find?_eq_some hget) e he hkind
  · cases he

namespace AlikeOutside

variable {g g' : ClassGraph} (h : AlikeOutside g g')

include h

theorem contains_eq (name : String) : g.contains name = g'.contains name := by
  unfold contains
  rw [← Option.isSome_map, h.node, Option.isSome_map]

/-- The graphs have a class for the same names, and then two that are alike. -/
theorem get?_cases (name : String) : (g.get? name = none ∧ g'.get? name = none) ∨
    ∃ n n', g.get? name = some n ∧ g'.get? name = some n' ∧ n.withoutPrivate = n'.withoutPrivate := by
  have hnode := h.node name
  cases hget : g.get? name with
  | none =>
    rw [hget] at hnode
    exact Or.inl ⟨rfl, Option.map_eq_none_iff.mp hnode.symm⟩
  | some n =>
    rw [hget] at hnode
    obtain ⟨n', hget', hn'⟩ := Option.map_eq_some_iff.mp hnode.symm
    exact Or.inr ⟨n, n', rfl, hget', hn'.symm⟩

theorem filter_outgoing (name : String) :
    (g.outgoing name).filter Edge.isOpen = (g'.outgoing name).filter Edge.isOpen := by
  unfold outgoing
  rcases h.get?_cases name with ⟨hget, hget'⟩ | ⟨n, n', hget, hget', halike⟩
  · rw [hget, hget']
  · rw [hget, hget']
    exact congrArg ClassNode.edges halike

theorem targets_eq : g.targets EdgeKind.isHierarchy = g'.targets EdgeKind.isHierarchy := by
  funext name
  unfold targets
  rw [← filter_targets h.left, ← filter_targets h.right, h.filter_outgoing]
  congr 1
  funext e
  rw [h.contains_eq]

theorem nodesNamed_eq (names : List String) :
    (g.nodesNamed names).map ClassNode.withoutPrivate =
      (g'.nodesNamed names).map ClassNode.withoutPrivate := by
  unfold nodesNamed
  rw [List.map_filterMap, List.map_filterMap]
  exact List.filterMap_congr fun name _ => h.node name

theorem ancestors_eq (name : String) :
    (g.ancestors name).map ClassNode.withoutPrivate =
      (g'.ancestors name).map ClassNode.withoutPrivate := by
  unfold ancestors
  rw [h.targets_eq, h.size]
  exact h.nodesNamed_eq _

theorem collect_eq (owner : String) (names : List String) :
    (g.collect owner names).map ClassNode.withoutPrivate =
      (g'.collect owner names).map ClassNode.withoutPrivate :=
  h.nodesNamed_eq _

theorem accessibleEdges_eq (name : String) (asker : Asker) :
    g.accessibleEdges name asker = g'.accessibleEdges name asker := by
  unfold accessibleEdges resolve
  rcases h.get?_cases name with ⟨hget, hget'⟩ | ⟨n, n', hget, hget', halike⟩
  · rw [hget, hget']
  · have hedges : n.edges.filter Edge.isOpen = n'.edges.filter Edge.isOpen :=
      congrArg ClassNode.edges halike
    rw [hget, hget']
    show Except.ok (n.edges.filter (asker.sees n.record.package)) =
      Except.ok (n'.edges.filter (asker.sees n'.record.package))
    rw [ClassNode.package_eq halike, ← asker.filter_isOpen_sees, hedges, asker.filter_isOpen_sees]

theorem dependenciesSeenBy_eq (name : String) (asker : Asker) :
    (g.dependenciesSeenBy name asker).map (List.map ClassNode.withoutPrivate) =
      (g'.dependenciesSeenBy name asker).map (List.map ClassNode.withoutPrivate) := by
  unfold dependenciesSeenBy
  rw [h.accessibleEdges_eq]
  cases g'.accessibleEdges name asker with
  | error fault => rfl
  | ok edges => exact congrArg Except.ok (h.collect_eq name (edges.map Edge.target))

theorem dependencyNames_eq {n n' : ClassNode} (hname : n.name = n'.name) (hedges : n.edges = n'.edges) :
    g.dependencyNames n .accessibleOnly = g'.dependencyNames n' .accessibleOnly := by
  rw [dependencyNames_accessibleOnly, dependencyNames_accessibleOnly, hname, hedges,
    ← ClassNode.flatMap_shown, h.ancestors_eq, ClassNode.flatMap_shown]

theorem dependencies_eq {name : String}
    (hedges : (g.get? name).map ClassNode.edges = (g'.get? name).map ClassNode.edges) :
    (g.dependencies name .accessibleOnly).map (List.map ClassNode.withoutPrivate) =
      (g'.dependencies name .accessibleOnly).map (List.map ClassNode.withoutPrivate) := by
  unfold dependencies resolve
  rcases h.get?_cases name with ⟨hget, hget'⟩ | ⟨n, n', hget, hget', halike⟩
  · rw [hget, hget']
    rfl
  · rw [hget, hget'] at hedges
    rw [hget, hget']
    refine congrArg Except.ok ?_
    rw [h.dependencyNames_eq (ClassNode.name_eq halike) (Option.some.inj hedges), h.collect_eq]

end AlikeOutside

end ClassGraph

/-! ## Runs that differ in private parts -/

namespace GraphBuilder

open Hierarchy (FindsComponents)

section

variable {definitions definitions' : List Definition}
  (halike : definitions.map Definition.withoutPrivate = definitions'.map Definition.withoutPrivate)

include halike

theorem exists_alike {d : Definition} (hd : d ∈ definitions) :
    ∃ d' ∈ definitions', d'.withoutPrivate = d.withoutPrivate := by
  have hmem : d.withoutPrivate ∈ definitions.map Definition.withoutPrivate :=
    List.mem_map.mpr ⟨d, hd, rfl⟩
  rw [halike] at hmem
  exact List.mem_map.mp hmem

/-- What counts in one run has its like in the other, and that counts there. -/
theorem exists_counts_alike {d : Definition} (hd : Counts definitions d) :
    ∃ d', Counts definitions' d' ∧ d'.withoutPrivate = d.withoutPrivate := by
  obtain ⟨before, after, rfl, hwins⟩ := hd
  rw [List.map_append, List.map_cons] at halike
  obtain ⟨before', rest', rfl, hbefore, hrest⟩ := List.map_eq_append_iff.mp halike.symm
  obtain ⟨d', after', rfl, hd', hafter⟩ := List.map_eq_cons_iff.mp hrest
  -- Names and provenances are kept, and nothing else decides who wins.
  have hwins' : Wins before' d' after' := by
    constructor
    · intro c' hc' hname
      obtain ⟨c, hc, hcc'⟩ := exists_alike hbefore hc'
      rw [Definition.provenance_eq hd', ← Definition.provenance_eq hcc']
      exact hwins.earlier c hc
        ((Definition.name_eq hcc').trans (hname.trans (Definition.name_eq hd')))
    · intro c' hc' hname
      obtain ⟨c, hc, hcc'⟩ := exists_alike hafter hc'
      rw [Definition.provenance_eq hd', ← Definition.provenance_eq hcc']
      exact hwins.later c hc
        ((Definition.name_eq hcc').trans (hname.trans (Definition.name_eq hd')))
  exact ⟨d', hwins'.counts, hd'⟩

theorem extends_of_alike {a c : String} (h : Extends definitions a c) : Extends definitions' a c := by
  obtain ⟨d, hd, rfl, hsupertype, e, he, rfl⟩ := h
  obtain ⟨d', hcounts, hdd'⟩ := exists_counts_alike halike hd
  obtain ⟨e', he', hee'⟩ := exists_alike halike he
  refine ⟨d', hcounts, Definition.name_eq hdd', ?_, e', he', Definition.name_eq hee'⟩
  show d'.record.withoutPrivate.NamesSupertype e.name
  rw [Definition.record_eq hdd']
  exact hsupertype

theorem extends_eq : Extends definitions = Extends definitions' := by
  funext a c
  exact propext ⟨extends_of_alike halike, extends_of_alike halike.symm⟩

end

section

variable {split : List (String × List String) → List (List String)} {b : GraphBuilder}

variable {definitions definitions' : List Definition} (hsplit : FindsComponents split)
  (halike : definitions.map Definition.withoutPrivate = definitions'.map Definition.withoutPrivate)
  (hwalk : b.slots.Perm (empty.recordAll definitions).slots)
  {b' : GraphBuilder} (hwalk' : b'.slots.Perm (empty.recordAll definitions').slots)

include hwalk

/-- The edges of a class are edges of its record. -/
theorem edges_eq_filter {n : ClassNode} (hn : n ∈ (b.finishWith split).1.nodes) :
    n.edges = n.record.edges.filter fun e => e ∈ n.edges := by
  rw [nodes_finishWith (holds_walk hwalk)] at hn
  obtain ⟨d, _, rfl⟩ := List.mem_map.mp hn
  unfold nodeOf
  refine List.filter_congr fun e he => ?_
  simp [he]

/-- The class of a name has the record of the definition that counts. -/
theorem record_get? {d : Definition} (hd : Counts definitions d) :
    ((b.finishWith split).1.get? d.name).map ClassNode.record = some d.record := by
  obtain ⟨n, hn, rfl⟩ : ∃ m ∈ (b.finishWith split).1.nodes, m.definition = d := exists_node hwalk hd
  have hget : (b.finishWith split).1.get? n.definition.name = some n :=
    (ClassGraph.get?_eq_some_iff (nodup_names hwalk)).mpr ⟨hn, rfl⟩
  rw [hget]
  rfl

theorem supertypesOpen : (b.finishWith split).1.SupertypesOpen := by
  intro n hn e he hkind
  rw [edges_eq_filter hwalk hn] at he
  exact ClassRecord.isOpen_of_isHierarchy (List.mem_of_mem_filter he) hkind

include halike hwalk'

/-- The same names have a class. -/
theorem mem_names_alike {name : String} :
    name ∈ (b.finishWith split).1.nodes.map ClassNode.name ↔
      name ∈ (b'.finishWith split).1.nodes.map ClassNode.name := by
  rw [mem_names_iff hwalk, mem_names_iff hwalk']
  constructor
  · rintro ⟨d, hd, rfl⟩
    obtain ⟨d', hd', hdd'⟩ := exists_alike halike hd
    exact ⟨d', hd', Definition.name_eq hdd'⟩
  · rintro ⟨d', hd', rfl⟩
    obtain ⟨d, hd, hdd'⟩ := exists_alike halike.symm hd'
    exact ⟨d, hd, Definition.name_eq hdd'⟩

include hsplit

/-- Whether an edge stays hangs on its source, its kind and its target, and on what extends
what. So two classes of one name keep the same of those edges that their records share. -/
theorem filter_edges_alike {n n' : ClassNode} (hn : n ∈ (b.finishWith split).1.nodes)
    (hn' : n' ∈ (b'.finishWith split).1.nodes) (hname : n'.name = n.name) {shared : Edge → Bool}
    (hrecord : n'.record.edges.filter shared = n.record.edges.filter shared) :
    n'.edges.filter shared = n.edges.filter shared := by
  rw [edges_eq_filter hwalk hn, edges_eq_filter hwalk' hn', List.filter_comm shared,
    List.filter_comm shared, hrecord]
  apply List.filter_congr
  intro e he
  rw [decide_eq_decide]
  have hmem : e ∈ n.record.edges := List.mem_of_mem_filter he
  have hmem' : e ∈ n'.record.edges := List.mem_of_mem_filter (hrecord ▸ he)
  rw [mem_edges_finishWith (holds_walk hwalk') hsplit hn', mem_edges_finishWith (holds_walk hwalk) hsplit hn,
    declares_eq_extends hwalk', declares_eq_extends hwalk, extends_eq halike, hname,
    mem_names_alike halike hwalk hwalk']
  simp only [hmem, hmem', true_and]

theorem exists_node_alike {n : ClassNode} (hn : n ∈ (b.finishWith split).1.nodes) :
    ∃ n' ∈ (b'.finishWith split).1.nodes, n'.withoutPrivate = n.withoutPrivate := by
  obtain ⟨d', hd', halike'⟩ := exists_counts_alike halike (counts_node hwalk hn)
  obtain ⟨n', hn', rfl⟩ : ∃ m ∈ (b'.finishWith split).1.nodes, m.definition = d' :=
    exists_node hwalk' hd'
  have hname : n'.name = n.name := Definition.name_eq halike'
  have hprovenance : n'.provenance = n.provenance := Definition.provenance_eq halike'
  have hrecord : n'.record.withoutPrivate = n.record.withoutPrivate := Definition.record_eq halike'
  have hopen : n'.record.edges.filter Edge.isOpen = n.record.edges.filter Edge.isOpen := by
    rw [ClassRecord.filter_edges, ClassRecord.filter_edges, hrecord]
  refine ⟨n', hn', ?_⟩
  unfold ClassNode.withoutPrivate
  rw [hrecord, hprovenance, filter_edges_alike hsplit halike hwalk hwalk' hn hn' hname hopen]

/-- The class of a name in one graph is alike to the one in the other. -/
theorem get?_alike {name : String} {n : ClassNode} (h : (b.finishWith split).1.get? name = some n) :
    ∃ n', (b'.finishWith split).1.get? name = some n' ∧ n'.withoutPrivate = n.withoutPrivate := by
  obtain ⟨hn, rfl⟩ := (ClassGraph.get?_eq_some_iff (nodup_names hwalk)).mp h
  obtain ⟨n', hn', halike'⟩ := exists_node_alike hsplit halike hwalk hwalk' hn
  exact ⟨n', (ClassGraph.get?_eq_some_iff (nodup_names hwalk')).mpr
    ⟨hn', ClassNode.name_eq halike'⟩, halike'⟩

theorem alikeOutside : ClassGraph.AlikeOutside (b.finishWith split).1 (b'.finishWith split).1 where
  size := by
    have hperm : ((b.finishWith split).1.nodes.map ClassNode.name).Perm
        ((b'.finishWith split).1.nodes.map ClassNode.name) :=
      (List.perm_ext_iff_of_nodup (nodup_names hwalk) (nodup_names hwalk')).mpr fun _ =>
        mem_names_alike halike hwalk hwalk'
    simpa using hperm.length_eq
  node := by
    intro name
    cases hget : (b.finishWith split).1.get? name with
    | some n =>
      obtain ⟨n', hget', halike'⟩ := get?_alike hsplit halike hwalk hwalk' hget
      rw [hget', Option.map_some, Option.map_some, halike']
    | none =>
      cases hget' : (b'.finishWith split).1.get? name with
      | none => rfl
      | some n' =>
        obtain ⟨n, hn, _⟩ := get?_alike hsplit halike.symm hwalk' hwalk hget'
        rw [hget] at hn
        cases hn
  left := supertypesOpen hwalk
  right := supertypesOpen hwalk'

/-- Two classes of one name with one record have the same edges. -/
theorem map_edges_alike {name : String}
    (hrecord : ((b.finishWith split).1.get? name).map ClassNode.record =
      ((b'.finishWith split).1.get? name).map ClassNode.record) :
    ((b.finishWith split).1.get? name).map ClassNode.edges =
      ((b'.finishWith split).1.get? name).map ClassNode.edges := by
  rcases (alikeOutside hsplit halike hwalk hwalk').get?_cases name with
    ⟨hget, hget'⟩ | ⟨n, n', hget, hget', halike'⟩
  · rw [hget, hget']
  · rw [hget, hget', Option.map_some, Option.map_some, Option.some.injEq] at hrecord
    obtain ⟨hn, _⟩ := (ClassGraph.get?_eq_some_iff (nodup_names hwalk)).mp hget
    obtain ⟨hn', _⟩ := (ClassGraph.get?_eq_some_iff (nodup_names hwalk')).mp hget'
    have hall := filter_edges_alike hsplit halike hwalk hwalk' hn hn' (ClassNode.name_eq halike').symm
      (congrArg (fun r => r.edges.filter fun _ => true) hrecord.symm)
    rw [List.filter_true, List.filter_true] at hall
    rw [hget, hget', Option.map_some, Option.map_some, hall]

end

/-- Private declarations do not show. Two runs record the same definitions in the same order,
but for private fields and methods and for what the constant pools name. Then everyone who asks
sees the same references of a class, and the same classes through them. And a class whose own
record is the same in both runs has the same dependencies among what it can see. -/
theorem private_declarations_do_not_show
    {split : List (String × List String) → List (List String)} (hsplit : FindsComponents split)
    {definitions definitions' : List Definition}
    (halike : definitions.map Definition.withoutPrivate = definitions'.map Definition.withoutPrivate)
    {b b' : GraphBuilder} (hwalk : b.slots.Perm (empty.recordAll definitions).slots)
    (hwalk' : b'.slots.Perm (empty.recordAll definitions').slots) :
    let g := (b.finishWith split).1
    let g' := (b'.finishWith split).1
    (∀ name asker, (g.dependenciesSeenBy name asker).map (List.map ClassNode.withoutPrivate) =
        (g'.dependenciesSeenBy name asker).map (List.map ClassNode.withoutPrivate) ∧
      g.accessibleEdges name asker = g'.accessibleEdges name asker) ∧
    ∀ name, (g.get? name).map ClassNode.record = (g'.get? name).map ClassNode.record →
      (g.dependencies name .accessibleOnly).map (List.map ClassNode.withoutPrivate) =
        (g'.dependencies name .accessibleOnly).map (List.map ClassNode.withoutPrivate) := by
  intro g g'
  have houtside : ClassGraph.AlikeOutside g g' := alikeOutside hsplit halike hwalk hwalk'
  constructor
  · intro name asker
    exact ⟨houtside.dependenciesSeenBy_eq name asker, houtside.accessibleEdges_eq name asker⟩
  · intro name hrecord
    exact houtside.dependencies_eq (map_edges_alike hsplit halike hwalk hwalk' hrecord)

/-- The chick of a hen does not see what the hen keeps to herself. -/
theorem a_chick_does_not_see_a_private_egg :
    let chick := Definition.plain "a.Chick" (some "a.Hen") 0 0
    let hen := Definition.plain "a.Hen" none 0 1
    let nesting := { hen with record := { hen.record with
      fields := [⟨"egg", "La/Egg;", ⟨0x0002⟩, [], none, none, none⟩]
      referencedClasses := ["a.Egg", "a.Chick"] } }
    let egg := Definition.plain "a.Egg" none 0 2
    let definitions := [chick, hen, egg]
    let definitions' := [chick, nesting, egg]
    let b := empty.recordAll definitions
    let b' := empty.recordAll definitions'
    let g := (b.finishWith Hierarchy.components).1
    let g' := (b'.finishWith Hierarchy.components).1
    FindsComponents Hierarchy.components ∧
      definitions.map Definition.withoutPrivate = definitions'.map Definition.withoutPrivate ∧
      hen.record.edges ≠ nesting.record.edges ∧
      (g.get? "a.Chick").map ClassNode.record = (g'.get? "a.Chick").map ClassNode.record ∧
      g.accessibleEdges "a.Hen" (.subtype "a.Chick") = g'.accessibleEdges "a.Hen" (.subtype "a.Chick") ∧
      (g.dependencies "a.Chick" .accessibleOnly).map (List.map ClassNode.withoutPrivate) =
        (g'.dependencies "a.Chick" .accessibleOnly).map (List.map ClassNode.withoutPrivate) := by
  intro chick hen nesting egg definitions definitions' b b' g g'
  have halike : definitions.map Definition.withoutPrivate =
      definitions'.map Definition.withoutPrivate := rfl
  have hwins : Wins [] chick [hen, egg] :=
    ⟨by simp, by simp [chick, hen, egg, Definition.plain, Definition.name]⟩
  have hwins' : Wins [] chick [nesting, egg] :=
    ⟨by simp, by simp [chick, nesting, hen, egg, Definition.plain, Definition.name]⟩
  have hrecord : (g.get? "a.Chick").map ClassNode.record = some chick.record :=
    record_get? (List.Perm.refl b.slots) hwins.counts
  have hrecord' : (g'.get? "a.Chick").map ClassNode.record = some chick.record :=
    record_get? (List.Perm.refl b'.slots) hwins'.counts
  obtain ⟨hseen, hdependencies⟩ := private_declarations_do_not_show
    Hierarchy.components_findsComponents halike (List.Perm.refl b.slots) (List.Perm.refl b'.slots)
  exact ⟨Hierarchy.components_findsComponents, halike, by decide +kernel, hrecord.trans hrecord'.symm,
    (hseen "a.Hen" (.subtype "a.Chick")).2, hdependencies "a.Chick" (hrecord.trans hrecord'.symm)⟩

end GraphBuilder

end ClassAtlas
