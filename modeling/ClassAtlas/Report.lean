-- A scan as JSON. Classes are named by their position; a full report tells the members of
-- each class and where each edge stands, and a compact one leaves them out.
import ClassAtlas.Report.JsonValue
import ClassAtlas.ScanResult

namespace ClassAtlas.Report

inductive Style
  | compact
  | full
deriving DecidableEq

def Style.label : Style → String
  | compact => "compact"
  | full => "full"

/-! ## Codes -/

/-- The code of a kind of class. An annotation type is an interface too, but told as such. -/
def kindCode (r : ClassRecord) : Nat :=
  if r.access.isAnnotation then 3
  else if r.access.isInterface then 1
  else if r.access.isEnum then 2
  else 0

def visibilityCode : Visibility → Nat
  | .pub => 0
  | .prot => 1
  | .pkg => 2
  | .priv => 3

def edgeCode : EdgeKind → Nat
  | .superclass => 0
  | .interface => 1
  | .annotatedBy => 2
  | .fieldType => 3
  | .parameterType => 4
  | .returnType => 5
  | .thrownType => 6
  | .mention => 7

/-- The text of the place of a reference. -/
def originLabel : Origin → String
  | .header => "class"
  | .field name _ => "field:" ++ name
  | .method name descriptor _ => "method:" ++ name ++ descriptor
  | .body => "body"

/-! ## Parts -/

def rootJson (root : ScanRoot) : JsonValue :=
  .object [("k", .string root.kind.label), ("m", .ofText? root.module), ("p", .string root.path)]

/-- A member as its name, its descriptor and the code of its visibility. -/
def memberJson (name descriptor : String) (visibility : Visibility) : JsonValue :=
  .array [.string name, .string descriptor, .number (visibilityCode visibility)]

/-- What only a full report tells of a class, in front of its name. -/
def details (node : ClassNode) : List (String × JsonValue) :=
  let r := node.record
  [("ann", .ofTexts (r.annotations.map AnnotationRecord.typeName)),
    ("f", .array (r.fields.map fun f => memberJson f.name f.descriptor f.visibility)),
    ("ifs", .ofTexts r.interfaces),
    ("loc", .string node.provenance.location),
    ("m", .array (r.methods.map fun m => memberJson m.name m.descriptor m.visibility))] ++
    (node.provenance.module.toList.map fun name => ("mod", .string name))

/-- What only a full report tells of a class, behind its rank. -/
def origins (r : ClassRecord) : List (String × JsonValue) :=
  (r.signature.toList.map fun text => ("sig", .string text)) ++ [("sup", .ofText? r.superclass)]

def classJson (style : Style) (node : ClassNode) : JsonValue :=
  .object ((if style = .full then details node else []) ++
    [("n", .string node.name), ("r", .number node.provenance.rank)] ++
    (if style = .full then origins node.record else []) ++
    [("t", .number (kindCode node.record)),
      ("v", .number (visibilityCode node.record.visibility))])

def edgeJson (style : Style) (source target : Nat) (e : Edge) : JsonValue :=
  match style with
  | .compact => .array [.number source, .number target, .number (edgeCode e.kind)]
  | .full => .object [("at", .string (originLabel e.origin)), ("src", .number source),
      ("sub", .boolean e.accessibleFromSubtype), ("tgt", .number target),
      ("type", .string e.kind.label)]

/-- The edges of all classes, each with the positions of its ends. -/
def edgesJson (style : Style) (g : ClassGraph) : List JsonValue :=
  g.nodes.flatMap fun node => (g.position? node.name).toList.flatMap fun source =>
    node.edges.filterMap fun e =>
      (g.position? e.target).map fun target => edgeJson style source target e

def danglingJson (g : ClassGraph) (d : DanglingEdge) : JsonValue :=
  let source := match g.position? d.source with
    | some position => .number position
    | none => .null
  .array [source, .string d.edge.target, .number (edgeCode d.edge.kind)]

def shadowedJson (s : ShadowedDefinition) : JsonValue :=
  .object [("by", .number s.authoritative.rank), ("loc", .string s.definition.provenance.location),
    ("n", .string s.definition.name), ("r", .number s.definition.provenance.rank)]

def diagnosticJson (d : Diagnostic) : JsonValue :=
  .object [("k", .string d.fault.label), ("msg", .string d.fault.message)]

/-! ## The whole -/

/-- The report of a scan that took some milliseconds. -/
def json (style : Style) (milliseconds : Nat) (result : ScanResult) : JsonValue :=
  let g := result.graph
  .object [
    ("classes", .array (g.nodes.map (classJson style))),
    ("dangling", .array (g.dangling.map (danglingJson g))),
    ("diagnostics", .array (result.diagnostics.map diagnosticJson)),
    ("edges", .array (edgesJson style g)),
    ("meta", .object [
      ("classes", .number g.nodes.length),
      ("completion", .string result.completion.label),
      ("edges", .number g.edgeCount),
      ("elapsed_ms", .number milliseconds),
      ("entries", .number result.entries),
      ("format", .string style.label),
      ("roots", .number result.roots.length)]),
    ("roots", .array (result.roots.map rootJson)),
    ("shadowed", .array (g.shadowed.map shadowedJson))]

/-- The text of a report. -/
def text (style : Style) (milliseconds : Nat) (result : ScanResult) : String :=
  String.ofList (json style milliseconds result).render

end ClassAtlas.Report
