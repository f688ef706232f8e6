-- The references that a class holds. They are read off its record in the order of its
-- declarations, and of those that say the same only the first is kept.
import ClassAtlas.Graph.Edge

namespace ClassAtlas

/-! ## Everything that a record mentions -/

/-- References of one kind to some classes. -/
def mentionsOf (kind : EdgeKind) (origin : Origin) (targets : List String) : List Edge :=
  targets.map fun target => ⟨kind, target, origin⟩

/-- What some annotations of a declaration mention: their types, and after all types the
classes in their values. -/
def annotationMentions (origin : Origin) (annotations : List AnnotationRecord) : List Edge :=
  mentionsOf .annotatedBy origin (annotations.map AnnotationRecord.typeName) ++
    mentionsOf .mention origin (annotations.flatMap fun a => elementClasses a.elements)

/-- What the header of a class mentions. -/
def ClassRecord.headerMentions (r : ClassRecord) : List Edge :=
  mentionsOf .superclass .header r.superclass.toList ++
    mentionsOf .interface .header r.interfaces ++
    mentionsOf .mention .header (r.parsedSignature.toList.flatMap ClassSignature.classes) ++
    annotationMentions .header r.annotations

/-- Where the references of a field stand. -/
def FieldRecord.origin (f : FieldRecord) : Origin := .field f.name f.visibility

/-- The types that a field declares: its descriptor, if it can be read, and its signature. -/
def FieldRecord.types (f : FieldRecord) : List ValueType :=
  (ValueType.parse f.descriptor).toOption.toList ++ f.parsedSignature.toList

/-- What a field mentions. -/
def FieldRecord.mentions (f : FieldRecord) : List Edge :=
  mentionsOf .fieldType f.origin (f.types.flatMap ValueType.classes) ++
    annotationMentions f.origin f.annotations

/-- Where the references of a method stand. -/
def MethodRecord.origin (m : MethodRecord) : Origin := .method m.name m.descriptor m.visibility

/-- The types that a method declares: its descriptor, if it can be read, and its signature. -/
def MethodRecord.types (m : MethodRecord) : List MethodSignature :=
  (MethodSignature.parse m.descriptor).toOption.toList ++ m.parsedSignature.toList

/-- What a method mentions. -/
def MethodRecord.mentions (m : MethodRecord) : List Edge :=
  mentionsOf .parameterType m.origin
      (m.types.flatMap fun s => s.parameters.flatMap ValueType.classes) ++
    mentionsOf .returnType m.origin
      (m.types.flatMap fun s => s.result.toList.flatMap ValueType.classes) ++
    mentionsOf .thrownType m.origin
      ((m.types.flatMap fun s => s.throws.flatMap ThrownType.classes) ++ m.exceptions) ++
    mentionsOf .mention m.origin (m.types.flatMap MethodSignature.boundClasses) ++
    annotationMentions m.origin m.annotations ++
    m.parameterAnnotations.flatMap (annotationMentions m.origin) ++
    mentionsOf .mention m.origin (m.annotationDefault.toList.flatMap ElementValue.classes)

/-- What the declarations of a class mention, in their order. -/
def ClassRecord.declaredMentions (r : ClassRecord) : List Edge :=
  r.headerMentions ++ r.fields.flatMap FieldRecord.mentions ++
    r.methods.flatMap MethodRecord.mentions

/-! ## The edges of a class -/

/-- Whether the edge `old` makes the later mention `new` superfluous: it has the same target
and stands at the same declaration, and it says as much. -/
def Edge.covers (old new : Edge) : Bool :=
  old.target = new.target && old.origin = new.origin &&
    (old.kind = new.kind || new.kind = .mention)

/-- The edges of the class `owner` together with one more mention. A class is no target of
its own edges, but for those to supertypes, which are kept to be told as a cycle. -/
def Edge.addTo (owner : String) (edges : List Edge) (new : Edge) : List Edge :=
  if (new.target = owner && !new.kind.isHierarchy) || edges.any fun old => old.covers new then
    edges
  else edges ++ [new]

/-- The edges of a class: its declared mentions, and then what only its constant pool names. -/
def ClassRecord.edges (r : ClassRecord) : List Edge :=
  let declared := r.declaredMentions.foldl (Edge.addTo r.name) []
  let others := r.referencedClasses.filter fun name =>
    name ≠ r.name && !declared.any fun e => e.target = name
  (mentionsOf .mention .body others).foldl (Edge.addTo r.name) declared

end ClassAtlas
