-- References of one class to another: what kind they are of, where in the class they stand
-- and who can see them.
import ClassAtlas.Descriptor.Record

namespace ClassAtlas

inductive EdgeKind
  | superclass
  | interface
  | annotatedBy
  | fieldType
  | parameterType
  | returnType
  | thrownType
  /-- Any other mention of a class. -/
  | mention
deriving DecidableEq

namespace EdgeKind

/-- The name of a kind. -/
def label : EdgeKind → String
  | superclass => "extends"
  | interface => "implements"
  | annotatedBy => "annotated_by"
  | fieldType => "field_type"
  | parameterType => "method_param_type"
  | returnType => "method_return_type"
  | thrownType => "throws_type"
  | mention => "referenced"

/-- Whether an edge of that kind leads to a supertype. -/
def isHierarchy : EdgeKind → Bool
  | superclass | interface => true
  | _ => false

end EdgeKind

/-- Where in a class a reference stands. -/
inductive Origin
  /-- The supertypes, the signature and the annotations of the class. -/
  | header
  | field (name : String) (visibility : Visibility)
  | method (name descriptor : String) (visibility : Visibility)
  /-- Somewhere in the constant pool, at no declaration. -/
  | body
deriving DecidableEq

/-- The visibility of the declaration at which a reference stands. A header is public and a
body private. -/
def Origin.visibility : Origin → Visibility
  | header => .pub
  | field _ visibility => visibility
  | method _ _ visibility => visibility
  | body => .priv

/-- A reference to the class `target`. -/
structure Edge where
  kind : EdgeKind
  target : String
  origin : Origin
deriving DecidableEq

/-- Whether a subtype in any package can see a reference. -/
def Edge.accessibleFromSubtype (e : Edge) : Bool :=
  match e.origin.visibility with
  | .pub | .prot => true
  | .pkg | .priv => false

end ClassAtlas
