-- What a class descriptor tells about a class: its flags, its names, its members and their
-- annotations. All class names are dotted.
import ClassAtlas.Descriptor.Annotation
import ClassAtlas.Signature.Grammar

namespace ClassAtlas

/-! ## Access flags -/

/-- The access flags of a class, a member or an inner class. -/
structure AccessFlags where
  bits : UInt16
deriving DecidableEq

/-- Who may see a declaration. -/
inductive Visibility
  | pub
  | prot
  /-- Only its own package. -/
  | pkg
  | priv
deriving DecidableEq

namespace AccessFlags

/-- Whether all bits of `flag` are set. -/
def contains (access : AccessFlags) (flag : UInt16) : Bool := access.bits &&& flag == flag

/-- The visibility that the flags give. Public comes before protected and protected before
private. -/
def visibility (access : AccessFlags) : Visibility :=
  if access.contains 0x0001 then .pub
  else if access.contains 0x0004 then .prot
  else if access.contains 0x0002 then .priv
  else .pkg

def isInterface (access : AccessFlags) : Bool := access.contains 0x0200

def isAbstract (access : AccessFlags) : Bool := access.contains 0x0400

def isAnnotation (access : AccessFlags) : Bool := access.contains 0x2000

def isEnum (access : AccessFlags) : Bool := access.contains 0x4000

end AccessFlags

/-- The name of a visibility. -/
def Visibility.label : Visibility → String
  | pub => "public"
  | prot => "protected"
  | pkg => "package"
  | priv => "private"

/-! ## Records -/

/-- The constant that a field starts with. -/
inductive ConstantValue
  | int (value : Int32)
  | long (value : Int64)
  | float (bits : UInt32)
  | double (bits : UInt64)
  | string (value : String)
deriving DecidableEq

structure FieldRecord where
  name : String
  descriptor : String
  access : AccessFlags
  annotations : List AnnotationRecord
  /-- The text of the generic signature. -/
  signature : Option String
  /-- The generic signature, if its text can be read. -/
  parsedSignature : Option ValueType
  constantValue : Option ConstantValue

structure MethodRecord where
  name : String
  descriptor : String
  access : AccessFlags
  annotations : List AnnotationRecord
  /-- One list of annotations for each parameter. -/
  parameterAnnotations : List (List AnnotationRecord)
  signature : Option String
  parsedSignature : Option MethodSignature
  /-- The classes that the method is declared to throw. -/
  exceptions : List String
  /-- The default value of an element of an annotation type. -/
  annotationDefault : Option ElementValue

/-- An entry of the table of inner classes. -/
structure InnerClass where
  inner : String
  outer : Option String
  simpleName : Option String
  access : AccessFlags
deriving DecidableEq

structure ClassRecord where
  name : String
  access : AccessFlags
  minorVersion : UInt16
  majorVersion : UInt16
  /-- Nothing only for the root of all classes. -/
  superclass : Option String
  interfaces : List String
  fields : List FieldRecord
  methods : List MethodRecord
  annotations : List AnnotationRecord
  signature : Option String
  parsedSignature : Option ClassSignature
  /-- The class around this one, if its table of inner classes names it. -/
  outerClass : Option String
  innerClasses : List InnerClass
  /-- The classes that the constant pool names, in its order. -/
  referencedClasses : List String

def FieldRecord.visibility (f : FieldRecord) : Visibility := f.access.visibility

def MethodRecord.visibility (m : MethodRecord) : Visibility := m.access.visibility

/-- Whether a method constructs objects. -/
def MethodRecord.isConstructor (m : MethodRecord) : Bool := m.name = "<init>"

/-- All annotations of a method: its own and then those of its parameters. -/
def MethodRecord.allAnnotations (m : MethodRecord) : List AnnotationRecord :=
  m.annotations ++ m.parameterAnnotations.flatten

namespace ClassRecord

def visibility (r : ClassRecord) : Visibility := r.access.visibility

/-- The package of a class. -/
def package (r : ClassRecord) : String := Name.package r.name

/-- The name of a class without its package and without the classes around it. -/
def simpleName (r : ClassRecord) : String := Name.simple r.name

/-- Whether a class carries an annotation of that type. -/
def hasAnnotation (r : ClassRecord) (typeName : String) : Bool :=
  r.annotations.any fun a => a.typeName = typeName

/-- The first field of that name. -/
def field? (r : ClassRecord) (name : String) : Option FieldRecord :=
  r.fields.find? fun f => f.name = name

/-- The first method of that name. -/
def method? (r : ClassRecord) (name : String) : Option MethodRecord :=
  r.methods.find? fun m => m.name = name

end ClassRecord

end ClassAtlas
