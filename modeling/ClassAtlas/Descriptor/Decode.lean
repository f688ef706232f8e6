-- Reading a class descriptor: the magic word, the version, the constant pool, the header,
-- the members and the attributes. An attribute is cut off by its declared length, so one
-- that is not known is passed over and none reaches into the next.
import ClassAtlas.Descriptor.Record

namespace ClassAtlas

/-- A signature whose text cannot be read. The text stays in the record. -/
structure SignatureIssue where
  context : String
  fault : SignatureFault
deriving DecidableEq

/-- A class with the signatures of it that cannot be read. -/
structure DecodedClass where
  record : ClassRecord
  issues : List SignatureIssue

/-- What is read of a descriptor. -/
structure DecodeOptions where
  /-- Whether annotations that are invisible at run time are read too. -/
  invisibleAnnotations : Bool
deriving DecidableEq

namespace Descriptor

open Decoder

/-- The word that each descriptor starts with. -/
def magic : UInt32 := 0xCAFEBABE

/-- The oldest major version that is read. -/
def oldestMajor : UInt16 := 45

/-! ## Attributes -/

/-- Reads attributes one after the other and hands each body to `visit`, which changes what
is known so far. The name is looked up before the body is cut off. -/
def attributes {σ : Type} (pool : ConstantPool) (visit : String → σ → Decoder σ) :
    Nat → σ → Decoder σ
  | 0, known => return known
  | count + 1, known => do
    let index ← u2
    let length ← u4
    let name ← ofExcept (pool.text index)
    let body ← slice length.toNat
    let known ← within body (visit name known)
    attributes pool visit count known

/-- Reads a table of attributes. -/
def attributeTable {σ : Type} (pool : ConstantPool) (visit : String → σ → Decoder σ) (known : σ) :
    Decoder σ := do
  let count ← u2
  attributes pool visit count.toNat known

/-- A dotted class name. -/
def className (pool : ConstantPool) : Decoder String := Name.dotted <$> lookUp pool.className

/-- A dotted class name, or nothing for index zero. -/
def optionalClassName (pool : ConstantPool) : Decoder (Option String) := do
  let name ← lookUp (ConstantPool.optionally pool.className)
  return name.map Name.dotted

/-- The value of a constant that a field may start with. -/
def constantValue (pool : ConstantPool) (index : UInt16) :
    Except DescriptorFault ConstantValue := do
  match ← pool.get index with
  | .integer value => return .int value
  | .long value => return .long value
  | .float bits => return .float bits
  | .double bits => return .double bits
  | .string content => return .string (← pool.text content)
  | _ => throw (.wrongConstant index "constant value")

/-- Parameter annotations put behind those that are known: slot by slot, and as many slots
as the longer of both lists has. -/
def mergeParameters : List (List AnnotationRecord) → List (List AnnotationRecord) → List (List AnnotationRecord)
  | known, [] => known
  | [], more => more
  | a :: known, b :: more => (a ++ b) :: mergeParameters known more

/-! ## Members -/

/-- A field without attributes. -/
def bareField (access : UInt16) (name descriptor : String) : FieldRecord where
  name := name
  descriptor := descriptor
  access := ⟨access⟩
  annotations := []
  signature := none
  parsedSignature := none
  constantValue := none

/-- Reads an attribute of a field. -/
def fieldAttribute (options : DecodeOptions) (pool : ConstantPool) (name : String)
    (f : FieldRecord) : Decoder FieldRecord := do
  match name with
  | "Signature" => return { f with signature := some (← lookUp pool.text) }
  | "ConstantValue" => return { f with constantValue := some (← lookUp (constantValue pool)) }
  | "RuntimeVisibleAnnotations" =>
    return { f with annotations := f.annotations ++ (← AnnotationRecord.decodeList pool) }
  | "RuntimeInvisibleAnnotations" =>
    if options.invisibleAnnotations then
      return { f with annotations := f.annotations ++ (← AnnotationRecord.decodeList pool) }
    else return f
  | _ => return f

/-- A signature text as it was read, or the fault in it. -/
def parsed {α : Type} (parse : String → Except SignatureFault α) (context : String) :
    Option String → Option α × List SignatureIssue
  | none => (none, [])
  | some text =>
    match parse text with
    | .ok s => (some s, [])
    | .error fault => (none, [⟨context, fault⟩])

/-- Reads a field. -/
def field (options : DecodeOptions) (pool : ConstantPool) :
    Decoder (FieldRecord × List SignatureIssue) := do
  let access ← u2
  let name ← lookUp pool.text
  let descriptor ← lookUp pool.text
  let f ← attributeTable pool (fieldAttribute options pool) (bareField access name descriptor)
  let (s, issues) := parsed ValueType.parse s!"field {name}" f.signature
  return ({ f with parsedSignature := s }, issues)

/-- A method without attributes. -/
def bareMethod (access : UInt16) (name descriptor : String) : MethodRecord where
  name := name
  descriptor := descriptor
  access := ⟨access⟩
  annotations := []
  parameterAnnotations := []
  signature := none
  parsedSignature := none
  exceptions := []
  annotationDefault := none

/-- Reads an attribute of a method. -/
def methodAttribute (options : DecodeOptions) (pool : ConstantPool) (name : String)
    (m : MethodRecord) : Decoder MethodRecord := do
  match name with
  | "Signature" => return { m with signature := some (← lookUp pool.text) }
  | "Exceptions" => return { m with exceptions := m.exceptions ++ (← counted (className pool)) }
  | "RuntimeVisibleAnnotations" =>
    return { m with annotations := m.annotations ++ (← AnnotationRecord.decodeList pool) }
  | "RuntimeInvisibleAnnotations" =>
    if options.invisibleAnnotations then
      return { m with annotations := m.annotations ++ (← AnnotationRecord.decodeList pool) }
    else return m
  | "RuntimeVisibleParameterAnnotations" => do
    let more ← AnnotationRecord.decodeParameters pool
    return { m with parameterAnnotations := mergeParameters m.parameterAnnotations more }
  | "RuntimeInvisibleParameterAnnotations" =>
    if options.invisibleAnnotations then do
      let more ← AnnotationRecord.decodeParameters pool
      return { m with parameterAnnotations := mergeParameters m.parameterAnnotations more }
    else return m
  | "AnnotationDefault" =>
    return { m with annotationDefault := some (← AnnotationRecord.decodeOuterValue pool) }
  | _ => return m

/-- Reads a method. -/
def method (options : DecodeOptions) (pool : ConstantPool) :
    Decoder (MethodRecord × List SignatureIssue) := do
  let access ← u2
  let name ← lookUp pool.text
  let descriptor ← lookUp pool.text
  let m ← attributeTable pool (methodAttribute options pool) (bareMethod access name descriptor)
  let (s, issues) := parsed MethodSignature.parse s!"method {name}{descriptor}" m.signature
  return ({ m with parsedSignature := s }, issues)

/-! ## The class -/

/-- Reads an entry of the table of inner classes. -/
def innerClass (pool : ConstantPool) : Decoder InnerClass := do
  let inner ← className pool
  let outer ← optionalClassName pool
  let simpleName ← lookUp (ConstantPool.optionally pool.text)
  let access ← u2
  return ⟨inner, outer, simpleName, ⟨access⟩⟩

/-- Reads an attribute of a class. -/
def classAttribute (options : DecodeOptions) (pool : ConstantPool) (name : String)
    (r : ClassRecord) : Decoder ClassRecord := do
  match name with
  | "Signature" => return { r with signature := some (← lookUp pool.text) }
  | "RuntimeVisibleAnnotations" =>
    return { r with annotations := r.annotations ++ (← AnnotationRecord.decodeList pool) }
  | "RuntimeInvisibleAnnotations" =>
    if options.invisibleAnnotations then
      return { r with annotations := r.annotations ++ (← AnnotationRecord.decodeList pool) }
    else return r
  | "InnerClasses" => return { r with innerClasses := ← counted (innerClass pool) }
  | _ => return r

/-- The class that a class constant names: of an array its element, and nothing for an array
of primitive elements. -/
def constantClass? (name : String) : Option String :=
  if name.toList.head? = some '[' then Name.ofElementDescriptor? name else some (Name.dotted name)

/-- Puts a class behind those that were found, unless it is there or is the class itself. -/
def addReferenced (own : String) (found : List String) (name : String) : List String :=
  if name = own ∨ name ∈ found then found else found ++ [name]

/-- The classes that some class constants name, each once and without the class itself. -/
def referencedClasses (own : String) (names : List String) : List String :=
  (names.filterMap constantClass?).foldl (addReferenced own) []

/-- The class around a class, if its own entry in the table of inner classes names one. -/
def outerClass (own : String) (entries : List InnerClass) : Option String :=
  (entries.find? fun e => e.inner = own).bind InnerClass.outer

/-- Reads the magic word and the version. -/
def header : Decoder (UInt16 × UInt16) := do
  let found ← u4
  if found ≠ magic then throw (.wrongMagic found)
  let minor ← u2
  let major ← u2
  if major < oldestMajor then throw (.oldVersion major minor)
  return (minor, major)

/-- Reads what follows the constant pool. -/
def decodeBody (options : DecodeOptions) (minor major : UInt16) (pool : ConstantPool) :
    Decoder DecodedClass := do
  let access ← u2
  let name ← className pool
  let superclass ← optionalClassName pool
  let interfaces ← counted (className pool)
  let fields ← counted (field options pool)
  let methods ← counted (method options pool)
  let bare : ClassRecord := {
    name, access := ⟨access⟩, minorVersion := minor, majorVersion := major, superclass, interfaces
    fields := fields.map (·.1), methods := methods.map (·.1), annotations := []
    signature := none, parsedSignature := none, outerClass := none, innerClasses := []
    referencedClasses := [] }
  let r ← attributeTable pool (classAttribute options pool) bare
  let (s, issues) := parsed ClassSignature.parse "class signature" r.signature
  let constants ← ofExcept pool.classNames
  return {
    record := { r with
      parsedSignature := s
      outerClass := outerClass name r.innerClasses
      referencedClasses := referencedClasses name constants }
    issues := fields.flatMap (·.2) ++ methods.flatMap (·.2) ++ issues }

/-- Reads a class descriptor. -/
def decodeClass (options : DecodeOptions) : Decoder DecodedClass := do
  let (minor, major) ← header
  let pool ← ConstantPool.decode
  decodeBody options minor major pool

/-- The class that a byte string describes. Bytes behind the descriptor are not looked at. -/
def decode (options : DecodeOptions) (bytes : Bytes) : Except DescriptorFault DecodedClass :=
  Decoder.run (decodeClass options) bytes

end Descriptor

end ClassAtlas
