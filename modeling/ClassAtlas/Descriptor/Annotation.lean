-- Annotations and the values of their elements, and how they are read from a descriptor.
-- A value inside an array or inside a nested annotation lies deeper than the value around
-- it, and a reader gives up below a fixed depth.
import ClassAtlas.Descriptor.Constant
import ClassAtlas.Name

namespace ClassAtlas

/-- The value of an annotation element. Numbers of floating point are kept as their bits. -/
inductive ElementValue
  | byte (value : Int8)
  | char (value : Char)
  | short (value : Int16)
  | int (value : Int32)
  | long (value : Int64)
  | float (bits : UInt32)
  | double (bits : UInt64)
  | boolean (value : Bool)
  | string (value : String)
  /-- A constant of an enum class. -/
  | enumConstant (typeName constant : String)
  /-- A class literal, kept as its type descriptor. -/
  | classLiteral (descriptor : String)
  /-- A nested annotation: its type and its named values. -/
  | nested (typeName : String) (elements : List (String × ElementValue))
  | array (values : List ElementValue)

/-- An annotation: its type and its named values, in the order of the descriptor. -/
structure AnnotationRecord where
  typeName : String
  elements : List (String × ElementValue)

/-- The value of the first element of that name. -/
def AnnotationRecord.value? (a : AnnotationRecord) (name : String) : Option ElementValue :=
  (a.elements.find? fun e => e.1 = name).map (·.2)

/-! ## The classes that a value names -/

mutual

/-- The classes that a value names, from left to right: types of enum constants, class
literals and types of nested annotations. -/
def ElementValue.classes : ElementValue → List String
  | .enumConstant typeName _ => [typeName]
  | .classLiteral descriptor => (Name.ofElementDescriptor? descriptor).toList
  | .nested typeName elements => typeName :: elementClasses elements
  | .array values => valueClasses values
  | _ => []

/-- The classes that the values of some elements name. -/
def elementClasses : List (String × ElementValue) → List String
  | [] => []
  | (_, value) :: rest => value.classes ++ elementClasses rest

/-- The classes that some values name. -/
def valueClasses : List ElementValue → List String
  | [] => []
  | value :: rest => value.classes ++ valueClasses rest

end

/-- The classes that an annotation names, its own type first. -/
def AnnotationRecord.classes (a : AnnotationRecord) : List String := a.typeName :: elementClasses a.elements

/-! ## Reading -/

namespace AnnotationRecord

open Decoder

/-- The deepest nesting of values that is read. -/
def maxNesting : Nat := 256

/-- The character with a code point, or the replacement character where there is none. -/
def charOfCode (code : UInt32) : Char :=
  if h : code.isValidChar then ⟨code, h⟩ else Utf8.replacement

/-- Reads an annotation whose values are read by `value`. -/
def decodeWith (pool : ConstantPool) (value : Decoder ElementValue) : Decoder AnnotationRecord := do
  let typeName ← lookUp pool.text
  let elements ← counted do
    let name ← lookUp pool.text
    let v ← value
    return (name, v)
  return ⟨Name.ofDescriptor typeName, elements⟩

/-- Reads what follows the tag of a value. The values of an array are read by `item`, and
those of a nested annotation by `inner`. -/
def decodeTagged (pool : ConstantPool) (item inner : Decoder ElementValue) (tag : UInt8) :
    Decoder ElementValue :=
  match Char.ofNat tag.toNat with
  | 'B' => return .byte (← lookUp pool.integer).toInt8
  | 'C' => return .char (charOfCode (← lookUp pool.integer).toUInt32)
  | 'S' => return .short (← lookUp pool.integer).toInt16
  | 'Z' => return .boolean ((← lookUp pool.integer) != 0)
  | 'I' => return .int (← lookUp pool.integer)
  | 'J' => return .long (← lookUp pool.long)
  | 'F' => return .float (← lookUp pool.float)
  | 'D' => return .double (← lookUp pool.double)
  | 's' => return .string (← lookUp pool.text)
  | 'e' => do
    let typeName ← lookUp pool.text
    let constant ← lookUp pool.text
    return .enumConstant (Name.ofDescriptor typeName) constant
  | 'c' => return .classLiteral (← lookUp pool.text)
  | '@' => do
    let a ← decodeWith pool inner
    return .nested a.typeName a.elements
  | '[' => return .array (← counted item)
  | _ => throw (.unknownElementTag tag)

/-- Reads a value that may hold `levels - 1` levels of values inside. A nested annotation
costs a level of its own. -/
def decodeValue (pool : ConstantPool) : Nat → Decoder ElementValue
  | 0 => throw (.tooDeep maxNesting)
  | levels + 1 => do
    let tag ← u1
    let inner := match levels with
      | 0 => throw (.tooDeep maxNesting)
      | levels + 1 => decodeValue pool levels
    decodeTagged pool (decodeValue pool levels) inner tag

/-- Reads a value that stands on its own, such as a default. -/
def decodeOuterValue (pool : ConstantPool) : Decoder ElementValue :=
  decodeValue pool (maxNesting + 1)

/-- Reads an annotation. -/
def decode (pool : ConstantPool) : Decoder AnnotationRecord :=
  decodeWith pool (decodeValue pool maxNesting)

/-- Reads a list of annotations. -/
def decodeList (pool : ConstantPool) : Decoder (List AnnotationRecord) := counted (decode pool)

/-- Reads one list of annotations for each parameter. Their number takes one byte. -/
def decodeParameters (pool : ConstantPool) : Decoder (List (List AnnotationRecord)) := do
  let count ← u1
  times count.toNat (decodeList pool)

end AnnotationRecord

end ClassAtlas
