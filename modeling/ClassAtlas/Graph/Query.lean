-- Questions about the finished graph: who carries an annotation, who extends a class, what
-- are its supertypes. Lists of classes are in the order of arrival unless said otherwise.
import ClassAtlas.Graph.Freeze

namespace ClassAtlas

/-! ## The index -/

/-- For each question a list of pairs of a name and the position of a class that answers for
that name. -/
structure QueryIndex where
  annotated : List (String × Nat)
  methodAnnotated : List (String × Nat)
  fieldAnnotated : List (String × Nat)
  superclassOf : List (String × Nat)
  interfaceOf : List (String × Nat)

namespace QueryIndex

/-- The types of all annotations at the methods of a class and at their parameters. -/
def methodAnnotations (r : ClassRecord) : List String :=
  (r.methods.flatMap MethodRecord.allAnnotations).map AnnotationRecord.typeName

/-- The types of all annotations at the fields of a class. -/
def fieldAnnotations (r : ClassRecord) : List String :=
  (r.fields.flatMap FieldRecord.annotations).map AnnotationRecord.typeName

/-- The names that stand for each class, with its position. -/
def postings (names : ClassNode → List String) (nodes : List ClassNode) : List (String × Nat) :=
  nodes.zipIdx.flatMap fun (node, position) => (names node).map fun name => (name, position)

/-- The targets of the edges of one kind, those of the graph before the dangling ones. -/
def supertypes (kind : EdgeKind) (g : ClassGraph) : List (String × Nat) :=
  postings (fun node => (node.edges.filter fun e => e.kind = kind).map Edge.target) g.nodes ++
    g.dangling.filterMap fun d =>
      if d.edge.kind = kind then (g.position? d.source).map fun i => (d.edge.target, i) else none

/-- The index of a graph. Supertypes that were not scanned have their subtypes all the same. -/
def ofGraph (g : ClassGraph) : QueryIndex where
  annotated := postings (fun n => n.record.annotations.map AnnotationRecord.typeName) g.nodes
  methodAnnotated := postings (fun n => methodAnnotations n.record) g.nodes
  fieldAnnotated := postings (fun n => fieldAnnotations n.record) g.nodes
  superclassOf := supertypes .superclass g
  interfaceOf := supertypes .interface g

/-- The positions that stand for a name. -/
def lookUp (list : List (String × Nat)) (name : String) : List Nat :=
  list.filterMap fun (key, position) => if key = name then some position else none

end QueryIndex

/-! ## Questions -/

namespace ClassGraph

/-- The index of a graph. -/
def index (g : ClassGraph) : QueryIndex := QueryIndex.ofGraph g

/-- The classes at some positions, each of them once and in the order of arrival. -/
def nodesAt (g : ClassGraph) (positions : List Nat) : List ClassNode :=
  g.nodes.zipIdx.filterMap fun (node, position) =>
    if positions.contains position then some node else none

/-- The names of the classes at some positions, in the order of the positions. -/
def namesAt (g : ClassGraph) (positions : List Nat) : List String :=
  positions.filterMap fun i => g.nodes[i]?.map ClassNode.name

/-- The classes of some names that were scanned, in the order of the names. -/
def nodesNamed (g : ClassGraph) (names : List String) : List ClassNode := names.filterMap g.get?

/-- The classes that are among some names, in the order of arrival. -/
def nodesAmong (g : ClassGraph) (names : List String) : List ClassNode :=
  g.nodes.filter fun n => names.contains n.name

/-- The classes that carry an annotation, or carry an annotation type that itself carries
it, in any number of steps. -/
def withAnnotation (g : ClassGraph) (typeName : String) : List ClassNode :=
  let postings := g.index.annotated
  let annotationTypes := fun name =>
    ((QueryIndex.lookUp postings name).filterMap fun i => g.nodes[i]?).filterMap fun n =>
      if n.record.access.isAnnotation then some n.name else none
  let types := typeName :: Search.reached annotationTypes g.nodes.length [typeName] [typeName]
  g.nodesAt (types.flatMap (QueryIndex.lookUp postings))

/-- The classes with a method that carries an annotation, on itself or on a parameter. -/
def withMethodAnnotation (g : ClassGraph) (typeName : String) : List ClassNode :=
  g.nodesAt (QueryIndex.lookUp g.index.methodAnnotated typeName)

/-- The classes with a field that carries an annotation. -/
def withFieldAnnotation (g : ClassGraph) (typeName : String) : List ClassNode :=
  g.nodesAt (QueryIndex.lookUp g.index.fieldAnnotated typeName)

/-- The classes that extend or implement a class themselves. -/
def directSubtypes (g : ClassGraph) (name : String) : List ClassNode :=
  let index := g.index
  g.nodesAt (QueryIndex.lookUp index.superclassOf name ++ QueryIndex.lookUp index.interfaceOf name)

/-- The classes that extend a class in one or more steps. -/
def subclasses (g : ClassGraph) (name : String) : List ClassNode :=
  let index := g.index
  let next := fun current => g.namesAt (QueryIndex.lookUp index.superclassOf current)
  g.nodesAmong (Search.reached next g.nodes.length [name] [name])

/-- The classes that implement an interface: themselves, through an interface that extends
it, or as a subclass of such a class. -/
def implementors (g : ClassGraph) (name : String) : List ClassNode :=
  let index := g.index
  let next := fun current =>
    g.namesAt (QueryIndex.lookUp index.interfaceOf current) ++
      if current = name then []
      else g.namesAt (QueryIndex.lookUp index.superclassOf current)
  g.nodesAmong (Search.reached next g.nodes.length [name] [name])

/-- The scanned targets of some edges of a class. -/
def targets (g : ClassGraph) (select : EdgeKind → Bool) (name : String) : List String :=
  ((g.outgoing name).filter fun e => select e.kind).filterMap fun e =>
    if g.contains e.target then some e.target else none

/-- The superclass of a class, if it was scanned. -/
def superclass? (g : ClassGraph) (name : String) : Option String :=
  ((g.outgoing name).find? fun e => e.kind = .superclass).bind fun e =>
    if g.contains e.target then some e.target else none

/-- The superclasses of a class, the nearest first. -/
def superclasses (g : ClassGraph) (name : String) : List ClassNode :=
  g.nodesNamed
    (Search.reached (fun current => (g.superclass? current).toList) g.nodes.length [name] [name])

/-- The interfaces of a class and of its superclasses with all that they extend, in the
order of their discovery. -/
def interfaces (g : ClassGraph) (name : String) : List ClassNode :=
  let starts :=
    if g.contains name then name :: (g.superclasses name).map ClassNode.name else []
  g.nodesNamed (Search.reached (g.targets fun kind => kind = .interface) g.nodes.length starts [])

/-- All supertypes of a class, the nearest first. -/
def ancestors (g : ClassGraph) (name : String) : List ClassNode :=
  g.nodesNamed (Search.reached (g.targets EdgeKind.isHierarchy) g.nodes.length [name] [name])

end ClassGraph

end ClassAtlas
