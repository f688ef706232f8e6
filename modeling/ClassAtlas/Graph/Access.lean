-- What a class depends on, and which of its references another class can see. An answer
-- hangs on who asks: on the package of the asker and on whether it is a subtype.
import ClassAtlas.Graph.Query

namespace ClassAtlas

/-- Who asks about the references of a class. -/
structure Asker where
  package : String
  /-- Whether the asker is a subtype of that class. -/
  isSubtype : Bool
deriving DecidableEq

namespace Asker

/-- A class that asks about one of its supertypes. -/
def subtype (className : String) : Asker := ⟨Name.package className, true⟩

/-- A class that asks about a class it has nothing to do with. -/
def outsider (className : String) : Asker := ⟨Name.package className, false⟩

/-- Whether the asker can see a reference of a class in the package `declaring`. -/
def sees (asker : Asker) (declaring : String) (e : Edge) : Bool :=
  match e.origin.visibility with
  | .pub => true
  | .prot => asker.isSubtype || asker.package = declaring
  | .pkg => asker.package = declaring
  | .priv => false

end Asker

/-- Which references of its ancestors count for the dependencies of a class. -/
inductive DependencyScope
  | all
  /-- Only those that the class can see. -/
  | accessibleOnly
deriving DecidableEq

def DependencyScope.label : DependencyScope → String
  | all => "All"
  | accessibleOnly => "AccessibleOnly"

namespace ClassGraph

/-- The scanned classes other than `owner` among some names, each of them once and in the
order in which they are first named. -/
def collect (g : ClassGraph) (owner : String) (names : List String) : List ClassNode :=
  g.nodesNamed ((names.filter fun name => name ≠ owner).eraseDups)

/-- The references of a class that the asker can see. -/
def accessibleEdges (g : ClassGraph) (declaring : String) (asker : Asker) :
    Except ScanFault (List Edge) := do
  let node ← g.resolve declaring
  return node.edges.filter (asker.sees node.record.package)

/-- The names that count for the dependencies of a class: the targets of its edges, and of
each ancestor the name and the targets of its edges. -/
def dependencyNames (g : ClassGraph) (node : ClassNode) (scope : DependencyScope) : List String :=
  let counts := fun (ancestor : ClassNode) (e : Edge) =>
    scope = .all || (Asker.subtype node.name).sees ancestor.record.package e
  node.edges.map Edge.target ++
    (g.ancestors node.name).flatMap fun ancestor =>
      ancestor.name :: (ancestor.edges.filter (counts ancestor)).map Edge.target

/-- The classes that a class depends on: through its own references, as its ancestors and
through the references of its ancestors. -/
def dependencies (g : ClassGraph) (name : String) (scope : DependencyScope) :
    Except ScanFault (List ClassNode) := do
  let node ← g.resolve name
  return g.collect name (g.dependencyNames node scope)

/-- The classes that a class refers to where the asker can see it. -/
def dependenciesSeenBy (g : ClassGraph) (name : String) (asker : Asker) :
    Except ScanFault (List ClassNode) := do
  let edges ← g.accessibleEdges name asker
  return g.collect name (edges.map Edge.target)

end ClassGraph

end ClassAtlas
