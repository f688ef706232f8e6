-- How the classes of an archive are stored. A record is stored as its parts one after the
-- other. A parsed signature is not stored, for its text gives it back.
import ClassAtlas.ArchiveCache.Codec
import ClassAtlas.Descriptor.Record

namespace ClassAtlas

/-! ## Numbers and flags -/

/-- An integer as a natural number: twice itself, or one less than twice its negation. -/
def zigzag : Int → Nat
  | .ofNat n => 2 * n
  | .negSucc n => 2 * n + 1

/-- The integer that a natural number stands for. -/
def unzigzag (n : Nat) : Int := if n % 2 = 0 then .ofNat (n / 2) else .negSucc (n / 2)

namespace Storable

instance : Storable Int := via zigzag unzigzag
instance : Storable Bool := via Bool.toNat (· ≠ 0)
instance : Storable Char := via Char.toNat Char.ofNat
instance : Storable UInt16 := via UInt16.toNat UInt16.ofNat
instance : Storable UInt32 := via UInt32.toNat UInt32.ofNat
instance : Storable UInt64 := via UInt64.toNat UInt64.ofNat
instance : Storable Int8 := via Int8.toInt Int8.ofInt
instance : Storable Int16 := via Int16.toInt Int16.ofInt
instance : Storable Int32 := via Int32.toInt Int32.ofInt
instance : Storable Int64 := via Int64.toInt Int64.ofInt
instance : Storable AccessFlags := via AccessFlags.bits AccessFlags.mk

instance {α : Type} [Storable α] : Storable (Option α) := via Option.toList List.head?

/-- Writes a value behind the number of its case. -/
def tagged {α : Type} [Storable α] (tag : Nat) (value : α) : Bytes :=
  Codec.encodeNat tag ++ codec.encode value

/-- Reads a value of a case. -/
def untag {α β : Type} [Storable α] (ofValue : α → β) (bytes : Bytes) : Option (β × Bytes) :=
  (codec.decode bytes).map fun (value, rest) => (ofValue value, rest)

/-! ## Values -/

def encodeConstant : ConstantValue → Bytes
  | .int value => tagged 0 value
  | .long value => tagged 1 value
  | .float bits => tagged 2 bits
  | .double bits => tagged 3 bits
  | .string value => tagged 4 value

def decodeConstant (bytes : Bytes) : Option (ConstantValue × Bytes) := do
  let (tag, rest) ← Codec.decodeNat bytes
  match tag with
  | 0 => untag ConstantValue.int rest
  | 1 => untag ConstantValue.long rest
  | 2 => untag ConstantValue.float rest
  | 3 => untag ConstantValue.double rest
  | 4 => untag ConstantValue.string rest
  | _ => none

instance : Storable ConstantValue := ⟨encodeConstant, decodeConstant⟩

mutual

def encodeElement : ElementValue → Bytes
  | .byte value => tagged 0 value
  | .char value => tagged 1 value
  | .short value => tagged 2 value
  | .int value => tagged 3 value
  | .long value => tagged 4 value
  | .float bits => tagged 5 bits
  | .double bits => tagged 6 bits
  | .boolean value => tagged 7 value
  | .string value => tagged 8 value
  | .enumConstant typeName constant => tagged 9 (typeName, constant)
  | .classLiteral descriptor => tagged 10 descriptor
  | .nested typeName elements =>
    tagged 11 (typeName, elements.length) ++ encodeNamed elements
  | .array values => tagged 12 values.length ++ encodeElements values

def encodeNamed : List (String × ElementValue) → Bytes
  | [] => []
  | (name, value) :: rest => codec.encode name ++ encodeElement value ++ encodeNamed rest

def encodeElements : List ElementValue → Bytes
  | [] => []
  | value :: rest => encodeElement value ++ encodeElements rest

end

/-- Reads an element value that nests at most as deep as the fuel. -/
def decodeElement : Nat → Bytes → Option (ElementValue × Bytes)
  | 0, _ => none
  | fuel + 1, bytes => do
    let (tag, rest) ← Codec.decodeNat bytes
    match tag with
    | 0 => untag ElementValue.byte rest
    | 1 => untag ElementValue.char rest
    | 2 => untag ElementValue.short rest
    | 3 => untag ElementValue.int rest
    | 4 => untag ElementValue.long rest
    | 5 => untag ElementValue.float rest
    | 6 => untag ElementValue.double rest
    | 7 => untag ElementValue.boolean rest
    | 8 => untag ElementValue.string rest
    | 9 => untag (fun (typeName, constant) => ElementValue.enumConstant typeName constant) rest
    | 10 => untag ElementValue.classLiteral rest
    | 11 => do
      let ((typeName, size), rest) ← (codec : Codec (String × Nat)).decode rest
      let named : Codec (String × ElementValue) :=
        (codec : Codec String).pair ⟨encodeElement, decodeElement fuel⟩
      let (elements, rest) ← named.decodeMany size rest
      return (.nested typeName elements, rest)
    | 12 => do
      let (size, rest) ← Codec.decodeNat rest
      let (values, rest) ← Codec.decodeMany ⟨encodeElement, decodeElement fuel⟩ size rest
      return (.array values, rest)
    | _ => none

/-- Each level of an element value takes a byte at least. -/
instance : Storable ElementValue := ⟨encodeElement, fun bytes => decodeElement bytes.length bytes⟩

instance : Storable AnnotationRecord :=
  via (fun a => (a.typeName, a.elements)) fun (typeName, elements) => ⟨typeName, elements⟩

/-! ## Records -/

/-- What a parser makes of the text of a signature, if there is one that it can read. -/
def signatureOf {α : Type} (parse : String → Except SignatureFault α) (text : Option String) :
    Option α :=
  text.bind fun t => (parse t).toOption

instance : Storable FieldRecord :=
  via
    (fun f => (f.name, f.descriptor, f.access, f.annotations, f.signature, f.constantValue))
    fun (name, descriptor, access, annotations, signature, constantValue) =>
      { name, descriptor, access, annotations, signature, constantValue
        parsedSignature := signatureOf ValueType.parse signature }

instance : Storable MethodRecord :=
  via
    (fun m => (m.name, m.descriptor, m.access, m.annotations, m.parameterAnnotations, m.signature,
      m.exceptions, m.annotationDefault))
    fun (name, descriptor, access, annotations, parameterAnnotations, signature, exceptions,
        annotationDefault) =>
      { name, descriptor, access, annotations, parameterAnnotations, signature, exceptions
        annotationDefault, parsedSignature := signatureOf MethodSignature.parse signature }

instance : Storable InnerClass :=
  via (fun c => (c.inner, c.outer, c.simpleName, c.access))
    fun (inner, outer, simpleName, access) => { inner, outer, simpleName, access }

instance : Storable ClassRecord :=
  via
    (fun r => ((r.name, r.access, r.minorVersion, r.majorVersion, r.superclass, r.interfaces),
      (r.fields, r.methods, r.annotations, r.signature),
      (r.outerClass, r.innerClasses, r.referencedClasses)))
    fun ((name, access, minorVersion, majorVersion, superclass, interfaces),
        (fields, methods, annotations, signature),
        (outerClass, innerClasses, referencedClasses)) =>
      { name, access, minorVersion, majorVersion, superclass, interfaces, fields, methods
        annotations, signature, outerClass, innerClasses, referencedClasses
        parsedSignature := signatureOf ClassSignature.parse signature }

end Storable

end ClassAtlas
