-- The finished graph. Classes stand in the order of their arrival; each edge is resolved by
-- the name of its target or left dangling; and supertype edges that lie on a cycle are cut,
-- so that no class of the graph is its own ancestor.
import ClassAtlas.Graph.Builder
import ClassAtlas.Graph.Search
import ClassAtlas.ScanFault

namespace ClassAtlas

/-! ## The graph -/

/-- A class of the graph with its edges to classes of the graph. -/
structure ClassNode where
  record : ClassRecord
  provenance : Provenance
  edges : List Edge

def ClassNode.name (n : ClassNode) : String := n.record.name

/-- An edge whose target was not scanned. -/
structure DanglingEdge where
  source : String
  edge : Edge
deriving DecidableEq

/-- A definition that does not count, and where the one that does comes from. -/
structure ShadowedDefinition where
  definition : Definition
  authoritative : Provenance

structure ClassGraph where
  /-- The classes in the order of their arrival. -/
  nodes : List ClassNode
  /-- The edges of all classes once more, each with the positions of its source and its target. -/
  links : List (Nat × Nat × Edge)
  dangling : List DanglingEdge
  /-- In the order of their arrival. -/
  shadowed : List ShadowedDefinition

namespace ClassGraph

/-- The class of a name. -/
def get? (g : ClassGraph) (name : String) : Option ClassNode :=
  g.nodes.find? fun n => n.name = name

def contains (g : ClassGraph) (name : String) : Bool := (g.get? name).isSome

/-- The position of a class among all classes. -/
def position? (g : ClassGraph) (name : String) : Option Nat :=
  g.nodes.findIdx? fun n => n.name = name

/-- The class of a name, or the fault that there is none. -/
def resolve (g : ClassGraph) (name : String) : Except ScanFault ClassNode :=
  match g.get? name with
  | some node => .ok node
  | none => .error (.unresolvedSymbol name)

/-- The edges of a class, none if it was not scanned. -/
def outgoing (g : ClassGraph) (name : String) : List Edge :=
  match g.get? name with
  | some node => node.edges
  | none => []

/-- The number of edges between classes of the graph. -/
def edgeCount (g : ClassGraph) : Nat := g.links.length

/-- The definitions that the class of a name shadows. -/
def shadowsOf (g : ClassGraph) (name : String) : List ShadowedDefinition :=
  g.shadowed.filter fun s => s.definition.name = name

end ClassGraph

/-! ## Cycles of supertypes -/

namespace Hierarchy

/-- The targets of the supertype edges among some edges. -/
def named (edges : List Edge) : List String :=
  (edges.filter fun e => e.kind.isHierarchy).map Edge.target

/-- Each class with its supertypes among the classes that were scanned. -/
def table (pending : List (Definition × List Edge)) : List (String × List String) :=
  let names := pending.map fun (d, _) => d.name
  pending.map fun (d, edges) => (d.name, (named edges).filter names.contains)

/-- The supertypes of a class by such a table. -/
def supertypes (table : List (String × List String)) (name : String) : List String :=
  (table.lookup name).getD []

/-- All ancestors of a class by such a table. On a cycle a class is its own ancestor. -/
def ancestors (table : List (String × List String)) (name : String) : List String :=
  Search.reached (supertypes table) table.length [name] []

/-- Puts a class into the first group with a member that it belongs with, or else into a
group of its own. -/
def place (together : String → String → Bool) (name : String) : List (List String) → List (List String)
  | [] => [[name]]
  | group :: rest =>
    if group.any (together name) then (name :: group) :: rest else group :: place together name rest

/-- The classes of a table in groups. Two belong together if each is an ancestor of the other. -/
def components (table : List (String × List String)) : List (List String) :=
  let above := table.map fun (name, _) => (name, ancestors table name)
  let isBelow := fun a b => ((above.lookup a).getD []).contains b
  (table.map Prod.fst).foldr (place fun a b => isBelow a b && isBelow b a) []

/-- Whether a group of classes is a cycle. A class alone is one if it is its own supertype. -/
def isCycle (table : List (String × List String)) (group : List String) : Bool :=
  group.length > 1 || group.head?.any fun name => (supertypes table name).contains name

/-- The classes on a cycle of supertypes, each with the number of its cycle. The classes of
the table are put into groups by `split`. -/
def cycles (split : List (String × List String) → List (List String))
    (table : List (String × List String)) : List (String × Nat) :=
  ((split table).filter (isCycle table)).zipIdx.flatMap fun (group, number) =>
    group.map fun name => (name, number)

/-- Whether two classes lie on one cycle. -/
def sameCycle (cycles : List (String × Nat)) (a b : String) : Bool :=
  match cycles.lookup a, cycles.lookup b with
  | some i, some j => i == j
  | _, _ => false

end Hierarchy

/-! ## Freezing -/

namespace GraphBuilder

/-- Whether `a` may stand before `b` in the order of arrival. -/
def arrivesInOrder (a b : Provenance) : Bool := !b.precedes a

/-- The slots in the order in which their authoritative definitions arrive. -/
def sortedSlots (b : GraphBuilder) : List Slot :=
  b.slots.mergeSort fun s t => arrivesInOrder s.authoritative.provenance t.authoritative.provenance

/-- The authoritative definitions in the order of their arrival, each with its edges. -/
def pending (b : GraphBuilder) : List (Definition × List Edge) :=
  b.sortedSlots.map fun s => (s.authoritative, s.edges)

/-- The other definitions in the order of their arrival. -/
def shadowed (b : GraphBuilder) : List ShadowedDefinition :=
  let all := b.sortedSlots.flatMap fun s => s.shadows.map fun d => ⟨d, s.authoritative.provenance⟩
  all.mergeSort fun s t => arrivesInOrder s.definition.provenance t.definition.provenance

/-- The edges of a class to classes that were scanned, each with the position of its target. -/
def resolvedEdges (names : List String) (edges : List Edge) : List (Nat × Edge) :=
  edges.filterMap fun e => (names.findIdx? fun name => name = e.target).map fun target => (target, e)

/-- The edges of a class that stay: those to classes that were scanned, without the
supertype edges along a cycle. -/
def keptEdges (names : List String) (cycles : List (String × Nat)) (name : String)
    (edges : List Edge) : List (Nat × Edge) :=
  (resolvedEdges names edges).filter fun (_, e) =>
    !(e.kind.isHierarchy && Hierarchy.sameCycle cycles name e.target)

/-- The finished graph, and the classes on a cycle of supertypes as faults. The groups of
classes that reach each other are found by `split`. -/
def finishWith (split : List (String × List String) → List (List String)) (b : GraphBuilder) :
    ClassGraph × List Diagnostic :=
  let pending := b.pending
  let names := pending.map fun (d, _) => d.name
  let cycles := Hierarchy.cycles split (Hierarchy.table pending)
  let cyclic := names.filter fun name => (cycles.lookup name).isSome
  let nodes := pending.map fun (d, edges) => {
    record := d.record
    provenance := d.provenance
    edges := (keptEdges names cycles d.name edges).map Prod.snd }
  let links := pending.zipIdx.flatMap fun ((d, edges), source) =>
    (keptEdges names cycles d.name edges).map fun (target, e) => (source, target, e)
  let dangling := pending.flatMap fun (d, edges) =>
    (edges.filter fun e => !names.contains e.target).map fun e => ⟨d.name, e⟩
  (⟨nodes, links, dangling, b.shadowed⟩,
    cyclic.map fun name => Diagnostic.ofFault (.cyclicHierarchy name))

/-- The finished graph with the groups of this library. -/
def finish : GraphBuilder → ClassGraph × List Diagnostic := finishWith Hierarchy.components

end GraphBuilder

end ClassAtlas
