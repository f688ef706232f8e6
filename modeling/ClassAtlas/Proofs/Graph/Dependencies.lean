-- What a class depends on, told by what stands in the recorded definitions. In a hierarchy
-- without cycles every reference to a scanned class stays, so the answer of the graph is all that
-- a class and its ancestors name, as far as it is seen.
import ClassAtlas.Graph.Access
import ClassAtlas.Proofs.Graph.EdgeSet
import ClassAtlas.Proofs.Graph.Freezing

namespace ClassAtlas

open Relation (TransGen ReflTransGen)

/-! ## The records alone -/

/-- Whether what an ancestor in the package `declaring` names counts for a class in `package`,
if it is that visible: where all counts, or in public or protected declarations, or in those for
the package if that is the same. -/
def DependencyScope.Passes (scope : DependencyScope) (declaring package : String)
    (v : Visibility) : Prop :=
  scope = .all ∨ v = .pub ∨ v = .prot ∨ v = .pkg ∧ declaring = package

/-- A class depends on what it names, on its ancestors and on what these name, as far as that
passes. -/
inductive DependsOn (definitions : List Definition) (scope : DependencyScope) (d : Definition)
    (x : String) : Prop
  | own {v : Visibility} : d.record.Names v x → DependsOn definitions scope d x
  | ancestor : TransGen (Extends definitions) d.name x → DependsOn definitions scope d x
  | inherited {p : Definition} {v : Visibility} : Counts definitions p →
      TransGen (Extends definitions) d.name p.name → p.record.Names v x →
      scope.Passes p.record.package d.record.package v → DependsOn definitions scope d x

/-! ## Questions to a graph with distinct names -/

theorem nodup_eraseDups {α : Type} [BEq α] [LawfulBEq α] : ∀ l : List α, l.eraseDups.Nodup
  | [] => by simp
  | a :: rest => by
    rw [List.eraseDups_cons, List.nodup_cons]
    exact ⟨by simp, nodup_eraseDups _⟩
termination_by l => l.length
decreasing_by exact Nat.lt_succ_of_le (List.length_filter_le _ _)

namespace ClassGraph

variable {g : ClassGraph}

theorem contains_iff (g : ClassGraph) (name : String) :
    g.contains name ↔ name ∈ g.nodes.map ClassNode.name := by
  unfold contains get?
  simp

section

variable (h : (g.nodes.map ClassNode.name).Nodup)

include h

theorem mem_outgoing_iff {name : String} {e : Edge} :
    e ∈ g.outgoing name ↔ ∃ n ∈ g.nodes, n.name = name ∧ e ∈ n.edges := by
  unfold outgoing
  constructor
  · intro he
    cases hget : g.get? name with
    | none => simp [hget] at he
    | some n =>
      obtain ⟨hn, hname⟩ := (get?_eq_some_iff h).mp hget
      exact ⟨n, hn, hname, by simpa [hget] using he⟩
  · rintro ⟨n, hn, hname, he⟩
    rw [(get?_eq_some_iff h).mpr ⟨hn, hname⟩]
    exact he

theorem mem_nodesNamed {names : List String} {n : ClassNode} :
    n ∈ g.nodesNamed names ↔ n ∈ g.nodes ∧ n.name ∈ names := by
  unfold nodesNamed
  rw [List.mem_filterMap]
  constructor
  · rintro ⟨name, hname, hget⟩
    obtain ⟨hn, rfl⟩ := (get?_eq_some_iff h).mp hget
    exact ⟨hn, hname⟩
  · rintro ⟨hn, hname⟩
    exact ⟨n.name, hname, (get?_eq_some_iff h).mpr ⟨hn, rfl⟩⟩

theorem map_name_nodesNamed (names : List String) :
    (g.nodesNamed names).map ClassNode.name = names.filter g.contains := by
  unfold nodesNamed
  induction names with
  | nil => rfl
  | cons name rest ih =>
    cases hget : g.get? name with
    | none => simp [hget, contains, ih]
    | some n =>
      have hname := ((get?_eq_some_iff h).mp hget).2
      simp [hget, contains, ih, hname]

theorem mem_targets {select : EdgeKind → Bool} {a c : String} : c ∈ g.targets select a ↔
    (∃ n ∈ g.nodes, n.name = a ∧ ∃ e ∈ n.edges, select e.kind ∧ e.target = c) ∧
      c ∈ g.nodes.map ClassNode.name := by
  unfold targets
  rw [List.mem_filterMap]
  constructor
  · rintro ⟨e, he, htarget⟩
    obtain ⟨hout, hkind⟩ := List.mem_filter.mp he
    obtain ⟨n, hn, hname, he⟩ := (mem_outgoing_iff h).mp hout
    split at htarget
    · rename_i hcontains
      obtain rfl := Option.some.inj htarget
      exact ⟨⟨n, hn, hname, e, he, hkind, rfl⟩, (contains_iff g _).mp hcontains⟩
    · cases htarget
  · rintro ⟨⟨n, hn, hname, e, he, hkind, rfl⟩, hmem⟩
    refine ⟨e, List.mem_filter.mpr ⟨(mem_outgoing_iff h).mpr ⟨n, hn, hname, he⟩, hkind⟩, ?_⟩
    rw [if_pos ((contains_iff g _).mpr hmem)]

/-- The search for supertypes goes from a class to what its kept supertype edges lead to. -/
theorem leads_targets {a c : String} :
    Search.Leads (g.targets EdgeKind.isHierarchy) a c ↔
      g.Keeps a c ∧ c ∈ g.nodes.map ClassNode.name := mem_targets h

theorem mem_ancestors {name : String} {n : ClassNode} : n ∈ g.ancestors name ↔ n ∈ g.nodes ∧
    n.name ≠ name ∧ TransGen (Search.Leads (g.targets EdgeKind.isHierarchy)) name n.name := by
  have hall : ∀ x, g.targets EdgeKind.isHierarchy x ⊆ g.nodes.map ClassNode.name :=
    fun x y hy => ((leads_targets h).mp hy).2
  unfold ancestors
  rw [mem_nodesNamed h, Search.mem_reached hall (List.length_map _) (List.Subset.refl [name])]
  simp only [List.mem_singleton, exists_eq_left]

theorem mem_collect {owner : String} {names : List String} {n : ClassNode} :
    n ∈ g.collect owner names ↔ n ∈ g.nodes ∧ n.name ≠ owner ∧ n.name ∈ names := by
  unfold collect
  rw [mem_nodesNamed h, List.mem_eraseDups, List.mem_filter, decide_eq_true_eq,
    and_comm (a := n.name ∈ names)]

theorem nodup_collect (owner : String) (names : List String) :
    ((g.collect owner names).map ClassNode.name).Nodup := by
  unfold collect
  rw [map_name_nodesNamed h]
  exact (nodup_eraseDups _).filter _

end

end ClassGraph

/-! ## What an asker sees -/

theorem passes_iff {scope : DependencyScope} {n p : ClassNode} {e : Edge} :
    (scope = .all || (Asker.subtype n.name).sees p.record.package e) = true ↔
      scope.Passes p.record.package n.record.package e.origin.visibility := by
  have hpackage : Name.package n.name = p.record.package ↔ p.record.package = n.record.package :=
    eq_comm
  unfold DependencyScope.Passes Asker.sees Asker.subtype
  rw [Bool.or_eq_true, decide_eq_true_eq]
  apply or_congr_right
  cases e.origin.visibility <;> simp [hpackage]

/-- What passes is told by an edge that passes. -/
theorem ClassRecord.Names.exists_passing {r : ClassRecord} {scope : DependencyScope}
    {package : String} {v : Visibility} {x : String} (h : r.Names v x)
    (hpasses : scope.Passes r.package package v) (hother : x ≠ r.name) :
    ∃ e ∈ r.edges, e.target = x ∧ scope.Passes r.package package e.origin.visibility := by
  rcases h with ⟨origin, rfl, hat⟩ | ⟨rfl, hx⟩
  · obtain ⟨e, he, htarget, rfl⟩ := (ClassRecord.exists_edge_at_iff hother hat.ne_body).mpr hat
    exact ⟨e, he, htarget, hpasses⟩
  · -- the pool is private, so it passes only where all passes
    have hall : scope = .all := by simpa [DependencyScope.Passes] using hpasses
    obtain ⟨e, he, htarget⟩ := (ClassRecord.exists_edge_iff hother).mpr (Or.inr hx)
    exact ⟨e, he, htarget, Or.inl hall⟩

/-! ## The finished graph -/

namespace GraphBuilder

open Hierarchy (FindsComponents)

section

variable {split : List (String × List String) → List (List String)} {b : GraphBuilder}
  {definitions : List Definition} (hwalk : b.slots.Perm (empty.recordAll definitions).slots)

include hwalk

variable (hsplit : FindsComponents split)
  (hacyclic : ∀ name, ¬ TransGen (Extends definitions) name name)

include hsplit hacyclic

/-- Without a cycle no edge to a scanned class is cut. -/
theorem mem_edges_of_acyclic {n : ClassNode} (hn : n ∈ (b.finishWith split).1.nodes) {e : Edge} :
    e ∈ n.edges ↔ e ∈ n.record.edges ∧ e.target ∈ (b.finishWith split).1.nodes.map ClassNode.name := by
  rw [mem_edges_finishWith (holds_walk hwalk) hsplit hn]
  refine and_congr_right fun he => and_iff_left_of_imp fun htarget => ?_
  rintro ⟨hkind, hback⟩
  have hdeclares : (b.finishWith split).1.Declares n.name e.target :=
    ⟨n, hn, rfl, ⟨e, he, hkind, rfl⟩, htarget⟩
  rw [declares_eq_extends hwalk] at hdeclares hback
  exact hacyclic n.name (TransGen.head' hdeclares hback)

theorem leads_eq_extends :
    Search.Leads ((b.finishWith split).1.targets EdgeKind.isHierarchy) = Extends definitions := by
  have hdeclares : (b.finishWith split).1.Declares = Extends definitions := declares_eq_extends hwalk
  rw [← hdeclares]
  funext a c
  apply propext
  rw [ClassGraph.leads_targets (nodup_names hwalk), keeps_finishWith_iff (holds_walk hwalk) hsplit]
  constructor
  · exact fun h => h.1.1
  · intro h
    obtain ⟨_, _, _, _, htarget⟩ := id h
    refine ⟨⟨h, fun hback => ?_⟩, htarget⟩
    rw [hdeclares] at h hback
    exact hacyclic a (TransGen.head' h hback)

theorem mem_ancestors_finishWith {name : String} {p : ClassNode} :
    p ∈ (b.finishWith split).1.ancestors name ↔
      p ∈ (b.finishWith split).1.nodes ∧ TransGen (Extends definitions) name p.name := by
  rw [ClassGraph.mem_ancestors (nodup_names hwalk), leads_eq_extends hwalk hsplit hacyclic]
  refine and_congr_right fun _ => and_iff_right_of_imp fun habove heq => ?_
  rw [heq] at habove
  exact hacyclic name habove

/-- The names that the graph collects for a class are those of its dependencies. -/
theorem mem_dependencyNames {n : ClassNode} (hn : n ∈ (b.finishWith split).1.nodes)
    (scope : DependencyScope) {x : String} (hx : x ∈ (b.finishWith split).1.nodes.map ClassNode.name)
    (hother : x ≠ n.name) : x ∈ (b.finishWith split).1.dependencyNames n scope ↔
      DependsOn definitions scope n.definition x := by
  have hkept := fun {m : ClassNode} (hm : m ∈ (b.finishWith split).1.nodes) {e : Edge} =>
    mem_edges_of_acyclic hwalk hsplit hacyclic hm (e := e)
  unfold ClassGraph.dependencyNames
  simp only [List.mem_append, List.mem_flatMap, List.mem_cons, List.mem_map, List.mem_filter,
    mem_ancestors_finishWith hwalk hsplit hacyclic, passes_iff]
  constructor
  · rintro (⟨e, he, rfl⟩ | ⟨p, ⟨hp, habove⟩, rfl | ⟨e, ⟨he, hpasses⟩, rfl⟩⟩)
    · exact .own (ClassRecord.names_of_mem_edges ((hkept hn).mp he).1)
    · exact .ancestor habove
    · exact .inherited (counts_node hwalk hp) habove
        (ClassRecord.names_of_mem_edges ((hkept hp).mp he).1) hpasses
  · rintro (hnames | habove | ⟨hp, habove, hnames, hpasses⟩)
    · obtain ⟨e, he, rfl⟩ := (ClassRecord.exists_edge_iff hother).mpr hnames.mentions
      exact Or.inl ⟨e, (hkept hn).mpr ⟨he, hx⟩, rfl⟩
    · obtain ⟨p, hp, rfl⟩ := List.mem_map.mp hx
      exact Or.inr ⟨p, ⟨hp, habove⟩, Or.inl rfl⟩
    · obtain ⟨p, hnode, rfl⟩ : ∃ m ∈ (b.finishWith split).1.nodes, m.definition = _ :=
        exists_node hwalk hp
      refine Or.inr ⟨p, ⟨hnode, habove⟩, ?_⟩
      by_cases hself : x = p.name
      · exact Or.inl hself
      · obtain ⟨e, he, rfl, hvisible⟩ := hnames.exists_passing hpasses hself
        exact Or.inr ⟨e, ⟨(hkept hnode).mpr ⟨he, hx⟩, hvisible⟩, rfl⟩

end

/-- For all recorded definitions whose supertypes lead in no circle: the dependencies of a
class are, each once, the other scanned classes that it names, its ancestors, and what these
name, as far as the scope lets it pass. -/
theorem dependencies_are_what_a_class_and_its_ancestors_name
    {split : List (String × List String) → List (List String)} (hsplit : FindsComponents split)
    (definitions : List Definition) {b : GraphBuilder}
    (hwalk : b.slots.Perm (empty.recordAll definitions).slots)
    (hacyclic : ∀ name, ¬ TransGen (Extends definitions) name name)
    {d : Definition} (hd : Counts definitions d) (scope : DependencyScope) :
    let g := (b.finishWith split).1
    ∃ found, g.dependencies d.name scope = .ok found ∧ (found.map ClassNode.name).Nodup ∧
      found ⊆ g.nodes ∧ ∀ x, x ∈ found.map ClassNode.name ↔
        (∃ c ∈ definitions, c.name = x) ∧ x ≠ d.name ∧ DependsOn definitions scope d x := by
  intro g
  have hnames : (g.nodes.map ClassNode.name).Nodup := nodup_names hwalk
  obtain ⟨n, hn, rfl⟩ : ∃ n ∈ g.nodes, n.definition = d := exists_node hwalk hd
  have hget : g.get? n.definition.name = some n := (ClassGraph.get?_eq_some_iff hnames).mpr ⟨hn, rfl⟩
  refine ⟨g.collect n.name (g.dependencyNames n scope), ?_, ClassGraph.nodup_collect hnames _ _,
    fun m hm => ((ClassGraph.mem_collect hnames).mp hm).1, ?_⟩
  · unfold ClassGraph.dependencies ClassGraph.resolve
    rw [hget]
    rfl
  · intro x
    have hscanned : x ∈ g.nodes.map ClassNode.name ↔ ∃ c ∈ definitions, c.name = x :=
      mem_names_iff hwalk
    rw [← hscanned]
    constructor
    · intro hx
      obtain ⟨m, hm, rfl⟩ := List.mem_map.mp hx
      obtain ⟨hmem, hother, hname⟩ := (ClassGraph.mem_collect hnames).mp hm
      have hx' : m.name ∈ g.nodes.map ClassNode.name := List.mem_map.mpr ⟨m, hmem, rfl⟩
      exact ⟨hx', hother, (mem_dependencyNames hwalk hsplit hacyclic hn scope hx' hother).mp hname⟩
    · rintro ⟨hx, hother, hdepends⟩
      obtain ⟨m, hm, rfl⟩ := List.mem_map.mp hx
      refine List.mem_map.mpr ⟨m, (ClassGraph.mem_collect hnames).mpr ⟨hm, hother, ?_⟩, rfl⟩
      exact (mem_dependencyNames hwalk hsplit hacyclic hn scope hx hother).mpr hdepends

/-- A hen in another package, with an annotation, a public field and a private one. -/
def hen : Definition where
  record := { (Definition.plain "b.Hen" none 0 1).record with
    annotations := [⟨"b.Egg", []⟩]
    fields := [⟨"nest", "Lb/Nest;", ⟨0x0001⟩, [], none, none, none⟩,
      ⟨"mite", "[Lb/Mite;", ⟨0x0002⟩, [], none, none, none⟩] }
  provenance := (Definition.plain "b.Hen" none 0 1).provenance

/-- A chick that names this hen as its superclass and nothing else. -/
def chick : Definition := .plain "a.Chick" (some "b.Hen") 0 0

def henhouse : List Definition :=
  [chick, hen, .plain "b.Egg" none 0 2, .plain "b.Nest" none 0 3, .plain "b.Mite" none 0 4]

theorem counts_chick : Counts henhouse chick := counts_of_mem (by decide) (by simp [henhouse])

theorem counts_hen : Counts henhouse hen := counts_of_mem (by decide) (by simp [henhouse])

theorem extends_henhouse_iff {a c : String} :
    Extends henhouse a c ↔ a = chick.name ∧ c = hen.name := by
  rw [extends_iff_superclass (by decide) (by decide)]
  constructor
  · rintro ⟨d, hd, rfl, hsuperclass, -⟩
    simp only [henhouse, chick, hen, Definition.plain, List.mem_cons, List.not_mem_nil, or_false] at hd
    obtain rfl | rfl | rfl | rfl | rfl := hd <;> simp_all [chick, hen, Definition.plain, Definition.name]
  · rintro ⟨rfl, rfl⟩
    exact ⟨chick, counts_chick.mem, rfl, rfl, hen, counts_hen.mem, rfl⟩

theorem transGen_henhouse {a c : String} (h : TransGen (Extends henhouse) a c) :
    a = chick.name ∧ c = hen.name := by
  obtain ⟨_, hfirst, _⟩ := TransGen.head'_iff.mp h
  obtain ⟨_, _, hlast⟩ := TransGen.tail'_iff.mp h
  exact ⟨(extends_henhouse_iff.mp hfirst).1, (extends_henhouse_iff.mp hlast).2⟩

theorem not_transGen_henhouse (name : String) : ¬ TransGen (Extends henhouse) name name := by
  intro hcycle
  have hsame : chick.name = hen.name :=
    (transGen_henhouse hcycle).1.symm.trans (transGen_henhouse hcycle).2
  revert hsame
  decide

theorem edges_chick : chick.record.edges = [⟨.superclass, "b.Hen", .header⟩] := by
  decide

theorem edges_hen : hen.record.edges = [⟨.annotatedBy, "b.Egg", .header⟩,
    ⟨.fieldType, "b.Nest", .field "nest" .pub⟩, ⟨.fieldType, "b.Mite", .field "mite" .priv⟩] := by
  decide

/-- What the hen names passes to the chick. -/
theorem depends_through_hen (scope : DependencyScope) (origin : Origin) {x : String}
    (hother : x ≠ hen.name) (hbody : origin ≠ .body)
    (hedge : ∃ e ∈ hen.record.edges, e.target = x ∧ e.origin = origin)
    (hpasses : scope.Passes "b" "a" origin.visibility) : DependsOn henhouse scope chick x := by
  have hat := (ClassRecord.exists_edge_at_iff hother hbody).mp hedge
  have habove : TransGen (Extends henhouse) chick.name hen.name :=
    .single (extends_henhouse_iff.mpr ⟨rfl, rfl⟩)
  have hpackages : hen.record.package = "b" ∧ chick.record.package = "a" := by decide
  rw [← hpackages.1, ← hpackages.2] at hpasses
  exact .inherited counts_hen habove (Or.inl ⟨origin, rfl, hat⟩) hpasses

/-- What the private field of the hen holds is out of sight. -/
theorem not_accessible_mite : ¬ DependsOn henhouse .accessibleOnly chick "b.Mite" := by
  rintro (hnames | habove | ⟨hp, habove, hnames, hpasses⟩)
  · obtain ⟨e, he, htarget⟩ := (ClassRecord.exists_edge_iff (by decide)).mpr hnames.mentions
    rw [edges_chick] at he
    obtain rfl := List.mem_singleton.mp he
    simp at htarget
  · exact absurd (transGen_henhouse habove).2 (by decide)
  · obtain rfl := hp.unique counts_hen (transGen_henhouse habove).2
    obtain ⟨e, he, htarget, hvisible⟩ := hnames.exists_passing hpasses (by decide)
    rw [edges_hen] at he
    simp only [List.mem_cons, List.not_mem_nil, or_false] at he
    obtain rfl | rfl | rfl := he <;> simp [DependencyScope.Passes, Origin.visibility] at htarget hvisible

/-- A chick can see what marks the hen that it extends and what its public field holds, but not what
its private field holds. -/
theorem a_chick_depends_on_what_marks_its_hen :
    let b := empty.recordAll henhouse
    FindsComponents Hierarchy.components ∧ b.slots.Perm (empty.recordAll henhouse).slots ∧
      (∀ name, ¬ TransGen (Extends henhouse) name name) ∧ Counts henhouse chick ∧
      (∃ found, (b.finishWith Hierarchy.components).1.dependencies "a.Chick" .accessibleOnly = .ok found ∧
        "b.Egg" ∈ found.map ClassNode.name ∧ "b.Nest" ∈ found.map ClassNode.name ∧
        "b.Mite" ∉ found.map ClassNode.name) ∧
      ∃ found, (b.finishWith Hierarchy.components).1.dependencies "a.Chick" .all = .ok found ∧
        "b.Mite" ∈ found.map ClassNode.name := by
  intro b
  have hdependencies := fun scope => dependencies_are_what_a_class_and_its_ancestors_name
    Hierarchy.components_findsComponents henhouse (List.Perm.refl b.slots) not_transGen_henhouse
    counts_chick scope
  obtain ⟨seen, hseen, -, -, hmem⟩ := hdependencies .accessibleOnly
  obtain ⟨all, hall, -, -, hmemAll⟩ := hdependencies .all
  have hegg : DependsOn henhouse .accessibleOnly chick "b.Egg" :=
    depends_through_hen _ .header (by decide) (by decide) (by simp [edges_hen]) (Or.inr (Or.inl rfl))
  have hnest : DependsOn henhouse .accessibleOnly chick "b.Nest" :=
    depends_through_hen _ (.field "nest" .pub) (by decide) (by decide) (by simp [edges_hen])
      (Or.inr (Or.inl rfl))
  have hmite : DependsOn henhouse .all chick "b.Mite" :=
    depends_through_hen _ (.field "mite" .priv) (by decide) (by decide) (by simp [edges_hen])
      (Or.inl rfl)
  refine ⟨Hierarchy.components_findsComponents, List.Perm.refl _, not_transGen_henhouse, counts_chick,
    ⟨seen, hseen, ?_, ?_, ?_⟩, all, hall, ?_⟩
  · exact (hmem "b.Egg").mpr ⟨by decide, by decide, hegg⟩
  · exact (hmem "b.Nest").mpr ⟨by decide, by decide, hnest⟩
  · intro h
    exact not_accessible_mite ((hmem "b.Mite").mp h).2.2
  · exact (hmemAll "b.Mite").mpr ⟨by decide, by decide, hmite⟩

end GraphBuilder

end ClassAtlas
