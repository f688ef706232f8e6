-- The limits of the format. A record can be written as a descriptor when its names are
-- dotted, its texts and lists are short enough for their counts, its values do not nest too
-- deep, and its constants are not too many for the numbers of a pool.
import Mathlib.Algebra.GroupWithZero.Nat
import ClassAtlas.Descriptor.Encode

namespace ClassAtlas

/-! ## Texts and names -/

/-- The length of a text in bytes takes two bytes. -/
def TextFits (text : String) : Prop := (ModifiedUtf8.encode text).length ≤ 65535

instance (text : String) : Decidable (TextFits text) := inferInstanceAs (Decidable (_ ≤ _))

/-- The length of a list takes two bytes. -/
def CountFits {α : Type} (items : List α) : Prop := items.length ≤ 65535

instance {α : Type} (items : List α) : Decidable (CountFits items) :=
  inferInstanceAs (Decidable (_ ≤ _))

/-- A name that is written as a class constant. -/
structure ClassNameFits (name : String) : Prop where
  dotted : '/' ∉ name.toList
  short : TextFits (Name.slashed name)

/-- A name that is written as a type descriptor. -/
structure TypeNameFits (name : String) : Prop where
  dotted : '/' ∉ name.toList
  short : TextFits (Name.descriptor name)

/-! ## Constants -/

/-- A constant can be written: it is one, and if it is a text its length fits. -/
def Constant.Fits : Constant → Prop
  | .unusable => False
  | .text value => TextFits value
  | _ => True

/-- How many numbers some constants take. -/
def slotsOf (constants : List Constant) : Nat := (constants.map Constant.slots).sum

/-- The constants of a pool, in order. -/
def PoolBuilder.constants (p : PoolBuilder) : List Constant := p.entries.map Prod.fst

def ConstantValue.Fits : ConstantValue → Prop
  | .string value => TextFits value
  | _ => True

/-! ## Annotations -/

mutual

/-- The texts and lists of an annotation value fit. -/
def ElementValue.Fits : ElementValue → Prop
  | .string value => TextFits value
  | .enumConstant typeName constant => TypeNameFits typeName ∧ TextFits constant
  | .classLiteral descriptor => TextFits descriptor
  | .nested typeName elements => TypeNameFits typeName ∧ CountFits elements ∧ ElementsFit elements
  | .array values => CountFits values ∧ ValuesFit values
  | _ => True

def ElementsFit : List (String × ElementValue) → Prop
  | [] => True
  | (name, value) :: rest => TextFits name ∧ value.Fits ∧ ElementsFit rest

def ValuesFit : List ElementValue → Prop
  | [] => True
  | value :: rest => value.Fits ∧ ValuesFit rest

end

mutual

/-- How deep the values inside a value lie below it. An array takes them one level down, and
a nested annotation two. -/
def ElementValue.nesting : ElementValue → Nat
  | .nested _ elements => elementsNesting elements
  | .array values => valuesNesting values
  | _ => 0

def elementsNesting : List (String × ElementValue) → Nat
  | [] => 0
  | (_, value) :: rest => max (value.nesting + 2) (elementsNesting rest)

def valuesNesting : List ElementValue → Nat
  | [] => 0
  | value :: rest => max (value.nesting + 1) (valuesNesting rest)

end

mutual

/-- The number of bytes of an annotation value. -/
def ElementValue.size : ElementValue → Nat
  | .enumConstant _ _ => 5
  | .nested _ elements => 5 + elementsSize elements
  | .array values => 3 + valuesSize values
  | _ => 3

def elementsSize : List (String × ElementValue) → Nat
  | [] => 0
  | (_, value) :: rest => 2 + value.size + elementsSize rest

def valuesSize : List ElementValue → Nat
  | [] => 0
  | value :: rest => value.size + valuesSize rest

end

/-- An annotation whose values lie one level down. -/
structure AnnotationRecord.Fits (a : AnnotationRecord) : Prop where
  typeName : TypeNameFits a.typeName
  count : CountFits a.elements
  elements : ElementsFit a.elements
  nesting : ∀ e ∈ a.elements, e.2.nesting + 1 ≤ AnnotationRecord.maxNesting

def AnnotationRecord.size (a : AnnotationRecord) : Nat := 4 + elementsSize a.elements

/-- The number of bytes of a list of annotations. -/
def annotationsSize (annotations : List AnnotationRecord) : Nat :=
  2 + (annotations.map AnnotationRecord.size).sum

def AnnotationsFit (annotations : List AnnotationRecord) : Prop :=
  CountFits annotations ∧ ∀ a ∈ annotations, a.Fits

/-- The length of the body of an attribute takes four bytes. -/
def BodyFits (size : Nat) : Prop := size < 2 ^ 32

instance (size : Nat) : Decidable (BodyFits size) := inferInstanceAs (Decidable (_ < _))

/-! ## Members and classes -/

structure FieldRecord.Fits (f : FieldRecord) : Prop where
  name : TextFits f.name
  descriptor : TextFits f.descriptor
  signature : ∀ text ∈ f.signature, TextFits text
  constantValue : ∀ value ∈ f.constantValue, value.Fits
  annotations : AnnotationsFit f.annotations
  annotationsBody : BodyFits (annotationsSize f.annotations)

structure MethodRecord.Fits (m : MethodRecord) : Prop where
  name : TextFits m.name
  descriptor : TextFits m.descriptor
  signature : ∀ text ∈ m.signature, TextFits text
  exceptionCount : CountFits m.exceptions
  exceptions : ∀ name ∈ m.exceptions, ClassNameFits name
  annotations : AnnotationsFit m.annotations
  annotationsBody : BodyFits (annotationsSize m.annotations)
  parameterCount : m.parameterAnnotations.length ≤ 255
  parameters : ∀ annotations ∈ m.parameterAnnotations, AnnotationsFit annotations
  parametersBody : BodyFits (1 + (m.parameterAnnotations.map annotationsSize).sum)
  default : ∀ value ∈ m.annotationDefault,
    value.Fits ∧ value.nesting ≤ AnnotationRecord.maxNesting ∧ BodyFits value.size

structure InnerClass.Fits (e : InnerClass) : Prop where
  inner : ClassNameFits e.inner
  outer : ∀ name ∈ e.outer, ClassNameFits name
  simpleName : ∀ name ∈ e.simpleName, TextFits name

/-- The pool with all constants of a class. -/
def ClassRecord.pool (r : ClassRecord) : PoolBuilder :=
  ((Descriptor.writeBody r).run PoolBuilder.empty).2

/-- A class that can be written as a descriptor. -/
structure ClassRecord.Fits (r : ClassRecord) : Prop where
  version : Descriptor.oldestMajor ≤ r.majorVersion
  name : ClassNameFits r.name
  superclass : ∀ name ∈ r.superclass, ClassNameFits name
  interfaceCount : CountFits r.interfaces
  interfaces : ∀ name ∈ r.interfaces, ClassNameFits name
  fieldCount : CountFits r.fields
  fields : ∀ f ∈ r.fields, f.Fits
  methodCount : CountFits r.methods
  methods : ∀ m ∈ r.methods, m.Fits
  signature : ∀ text ∈ r.signature, TextFits text
  annotations : AnnotationsFit r.annotations
  annotationsBody : BodyFits (annotationsSize r.annotations)
  innerClassCount : CountFits r.innerClasses
  innerClasses : ∀ e ∈ r.innerClasses, e.Fits
  referencedClasses : ∀ name ∈ r.referencedClasses, ClassNameFits name
  slots : slotsOf r.pool.constants ≤ 65534

end ClassAtlas
