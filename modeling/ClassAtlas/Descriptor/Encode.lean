-- Writing a class record as a descriptor. Each constant is put into the pool when it is
-- first needed and shared from then on. A body of an attribute is written before the
-- attribute's own name, and the referenced classes come last.
import ClassAtlas.Descriptor.Decode

namespace ClassAtlas

/-! ## A growing pool -/

/-- A constant pool under construction. -/
structure PoolBuilder where
  /-- The constants so far with their numbers, in order. -/
  entries : List (Constant × UInt16)
  /-- The number of the next constant. -/
  next : UInt16

namespace PoolBuilder

/-- A pool without constants. The first one gets number 1. -/
def empty : PoolBuilder := ⟨[], 1⟩

/-- A writer may add constants to the pool. -/
abbrev Writer := StateM PoolBuilder

/-- The bytes of the constants, in order. -/
def bytes (pool : PoolBuilder) : Bytes := pool.entries.flatMap fun e => e.1.encode

/-- The number of a constant, which is added if the pool does not have it. -/
def intern (c : Constant) : Writer UInt16 := fun pool =>
  match pool.entries.find? (fun e => e.1 = c) with
  | some (_, index) => (index, pool)
  | none => (pool.next, ⟨pool.entries ++ [(c, pool.next)], pool.next + UInt16.ofNat c.slots⟩)

/-- The number of a text. -/
def text (value : String) : Writer UInt16 := intern (.text value)

/-- The number of a class, given by its dotted name. -/
def classRef (name : String) : Writer UInt16 := do
  let index ← text (Name.slashed name)
  intern (.classRef index)

/-- The number of a class, or zero for none. -/
def optionalClass : Option String → Writer UInt16
  | some name => classRef name
  | none => return 0

/-- The number of a text, or zero for none. -/
def optionalText : Option String → Writer UInt16
  | some value => text value
  | none => return 0

/-- The number of a string constant. -/
def string (value : String) : Writer UInt16 := do
  let index ← text value
  intern (.string index)

/-- The number of a constant that a field may start with. -/
def constantValue : ConstantValue → Writer UInt16
  | .int value => intern (.integer value)
  | .long value => intern (.long value)
  | .float bits => intern (.float bits)
  | .double bits => intern (.double bits)
  | .string value => string value

end PoolBuilder

namespace Descriptor

open PoolBuilder (Writer)
open BigEndian (word16)

/-- A number of items in two bytes. -/
def count (n : Nat) : Bytes := word16 (UInt16.ofNat n)

/-- The bytes of some items, one after the other. -/
def writeEach {α : Type} (write : α → Writer Bytes) : List α → Writer Bytes
  | [] => return []
  | a :: rest => do
    let front ← write a
    let back ← writeEach write rest
    return front ++ back

/-- A count and then as many items. -/
def writeCounted {α : Type} (write : α → Writer Bytes) (items : List α) : Writer Bytes := do
  let body ← writeEach write items
  return count items.length ++ body

/-- The index of a class. -/
def writeClass (name : String) : Writer Bytes := word16 <$> PoolBuilder.classRef name

/-! ## Annotations -/

/-- A tag and the index of a constant. -/
def tagged (tag : Char) (index : Writer UInt16) : Writer Bytes := do
  return UInt8.ofNat tag.toNat :: word16 (← index)

mutual

/-- The bytes of an annotation value. Small numbers are written as integers. -/
def writeValue : ElementValue → Writer Bytes
  | .byte value => tagged 'B' (PoolBuilder.intern (.integer value.toInt32))
  | .char value => tagged 'C' (PoolBuilder.intern (.integer value.val.toInt32))
  | .short value => tagged 'S' (PoolBuilder.intern (.integer value.toInt32))
  | .boolean value => tagged 'Z' (PoolBuilder.intern (.integer (if value then 1 else 0)))
  | .int value => tagged 'I' (PoolBuilder.intern (.integer value))
  | .long value => tagged 'J' (PoolBuilder.intern (.long value))
  | .float bits => tagged 'F' (PoolBuilder.intern (.float bits))
  | .double bits => tagged 'D' (PoolBuilder.intern (.double bits))
  | .string value => tagged 's' (PoolBuilder.text value)
  | .enumConstant typeName constant => do
    let typeBytes ← tagged 'e' (PoolBuilder.text (Name.descriptor typeName))
    let index ← PoolBuilder.text constant
    return typeBytes ++ word16 index
  | .classLiteral descriptor => tagged 'c' (PoolBuilder.text descriptor)
  | .nested typeName elements => do
    let typeBytes ← tagged '@' (PoolBuilder.text (Name.descriptor typeName))
    let body ← writeElements elements
    return typeBytes ++ count elements.length ++ body
  | .array values => do
    let body ← writeValues values
    return UInt8.ofNat '['.toNat :: count values.length ++ body

/-- The bytes of the named values of an annotation. -/
def writeElements : List (String × ElementValue) → Writer Bytes
  | [] => return []
  | (name, value) :: rest => do
    let index ← PoolBuilder.text name
    let front ← writeValue value
    let back ← writeElements rest
    return word16 index ++ front ++ back

/-- The bytes of the values of an array. -/
def writeValues : List ElementValue → Writer Bytes
  | [] => return []
  | value :: rest => do
    let front ← writeValue value
    let back ← writeValues rest
    return front ++ back

end

/-- The bytes of an annotation. -/
def writeAnnotation (a : AnnotationRecord) : Writer Bytes := do
  let index ← PoolBuilder.text (Name.descriptor a.typeName)
  let body ← writeElements a.elements
  return word16 index ++ count a.elements.length ++ body

/-- The bytes of a list of annotations. -/
def writeAnnotations : List AnnotationRecord → Writer Bytes := writeCounted writeAnnotation

/-! ## Attributes -/

/-- The body of an attribute under its name, or nothing when there is no such attribute. -/
def attributeIf (present : Bool) (name : String) (body : Writer Bytes) :
    Writer (List (String × Bytes)) := do
  if present then return [(name, ← body)] else return []

/-- The attribute of a signature text. -/
def signatureAttribute : Option String → Writer (List (String × Bytes))
  | some text => do return [("Signature", word16 (← PoolBuilder.text text))]
  | none => return []

/-- The attribute of a list of annotations. All are written as visible at run time. -/
def annotationsAttribute (annotations : List AnnotationRecord) : Writer (List (String × Bytes)) :=
  attributeIf (!annotations.isEmpty) "RuntimeVisibleAnnotations" (writeAnnotations annotations)

/-- The attribute of the constant that a field starts with. -/
def constantAttribute : Option ConstantValue → Writer (List (String × Bytes))
  | some value => do return [("ConstantValue", word16 (← PoolBuilder.constantValue value))]
  | none => return []

/-- The attribute of the default of an element of an annotation type. -/
def defaultAttribute : Option ElementValue → Writer (List (String × Bytes))
  | some value => do return [("AnnotationDefault", ← writeValue value)]
  | none => return []

/-- One attribute: its name, its length in four bytes and its body. -/
def writeAttribute (named : String × Bytes) : Writer Bytes := do
  let index ← PoolBuilder.text named.1
  return word16 index ++ BigEndian.bytes 4 named.2.length ++ named.2

/-- A table of attributes. -/
def writeAttributes : List (String × Bytes) → Writer Bytes := writeCounted writeAttribute

/-! ## Members -/

/-- The bytes of a field. -/
def writeField (f : FieldRecord) : Writer Bytes := do
  let name ← PoolBuilder.text f.name
  let descriptor ← PoolBuilder.text f.descriptor
  let signature ← signatureAttribute f.signature
  let constant ← constantAttribute f.constantValue
  let annotations ← annotationsAttribute f.annotations
  let table ← writeAttributes (signature ++ constant ++ annotations)
  return word16 f.access.bits ++ word16 name ++ word16 descriptor ++ table

/-- The bytes of the annotations of parameters. Their number takes one byte. -/
def writeParameters (parameters : List (List AnnotationRecord)) : Writer Bytes := do
  let body ← writeEach writeAnnotations parameters
  return UInt8.ofNat parameters.length :: body

/-- The bytes of a method. -/
def writeMethod (m : MethodRecord) : Writer Bytes := do
  let name ← PoolBuilder.text m.name
  let descriptor ← PoolBuilder.text m.descriptor
  let signature ← signatureAttribute m.signature
  let exceptions ← attributeIf (!m.exceptions.isEmpty) "Exceptions"
    (writeCounted writeClass m.exceptions)
  let annotations ← annotationsAttribute m.annotations
  let parameters ← attributeIf (!m.parameterAnnotations.isEmpty)
    "RuntimeVisibleParameterAnnotations" (writeParameters m.parameterAnnotations)
  let default ← defaultAttribute m.annotationDefault
  let table ← writeAttributes (signature ++ exceptions ++ annotations ++ parameters ++ default)
  return word16 m.access.bits ++ word16 name ++ word16 descriptor ++ table

/-! ## The class -/

/-- The bytes of an entry of the table of inner classes. -/
def writeInnerClass (e : InnerClass) : Writer Bytes := do
  let inner ← PoolBuilder.classRef e.inner
  let outer ← PoolBuilder.optionalClass e.outer
  let simpleName ← PoolBuilder.optionalText e.simpleName
  return word16 inner ++ word16 outer ++ word16 simpleName ++ word16 e.access.bits

/-- The bytes that follow the pool. -/
def writeBody (r : ClassRecord) : Writer Bytes := do
  let name ← PoolBuilder.classRef r.name
  let superclass ← PoolBuilder.optionalClass r.superclass
  let interfaces ← writeCounted writeClass r.interfaces
  let fields ← writeCounted writeField r.fields
  let methods ← writeCounted writeMethod r.methods
  let signature ← signatureAttribute r.signature
  let annotations ← annotationsAttribute r.annotations
  let innerClasses ← attributeIf (!r.innerClasses.isEmpty) "InnerClasses"
    (writeCounted writeInnerClass r.innerClasses)
  let table ← writeAttributes (signature ++ annotations ++ innerClasses)
  let _ ← writeEach writeClass r.referencedClasses
  return word16 r.access.bits ++ word16 name ++ word16 superclass ++ interfaces ++ fields ++
    methods ++ table

/-- The descriptor of a class. -/
def encode (r : ClassRecord) : Bytes :=
  let (body, pool) := (writeBody r).run PoolBuilder.empty
  BigEndian.word32 magic ++ word16 r.minorVersion ++ word16 r.majorVersion ++ word16 pool.next ++
    pool.bytes ++ body

end Descriptor

end ClassAtlas
