-- Fields and methods. A member that was written is read back as it was, apart from its
-- signature, whose text is parsed again.
import Mathlib.Algebra.GroupWithZero.Nat
import ClassAtlas.Proofs.Descriptor.Attributes

namespace ClassAtlas

/-! ## Members as they are read back -/

/-- A signature text parsed, or nothing where there is no text or the parser rejects it. -/
def readText {α : Type} (parse : String → Except SignatureFault α) (text : Option String) :
    Option α := text.bind fun t => (parse t).toOption

/-- The issue of a signature text that the parser rejects. -/
def textIssues {α : Type} (parse : String → Except SignatureFault α) (context : String)
    (text : Option String) : List SignatureIssue :=
  match text.map parse with
  | some (.error fault) => [⟨context, fault⟩]
  | _ => []

theorem parsed_eq {α : Type} (parse : String → Except SignatureFault α) (context : String)
    (text : Option String) :
    Descriptor.parsed parse context text = (readText parse text, textIssues parse context text) := by
  cases text with
  | none => rfl
  | some t =>
    simp only [Descriptor.parsed, readText, textIssues, Option.bind_some, Option.map_some]
    cases parse t <;> rfl

def FieldRecord.reread (f : FieldRecord) : FieldRecord :=
  { f with parsedSignature := readText ValueType.parse f.signature }

def FieldRecord.issues (f : FieldRecord) : List SignatureIssue :=
  textIssues ValueType.parse s!"field {f.name}" f.signature

def MethodRecord.reread (m : MethodRecord) : MethodRecord :=
  { m with parsedSignature := readText MethodSignature.parse m.signature }

def MethodRecord.issues (m : MethodRecord) : List SignatureIssue :=
  textIssues MethodSignature.parse s!"method {m.name}{m.descriptor}" m.signature

namespace PoolBuilder

open Decoder (Reads)
open BigEndian (word16)
open Descriptor (Visits TableFits fieldAttribute methodAttribute bareField bareMethod)

variable (options : DecodeOptions)

/-! ## Fields -/

/-- What is known of a field behind an attribute. -/
def withFieldSignature (text : Option String) (f : FieldRecord) : FieldRecord :=
  { f with signature := text.or f.signature }

def withConstantValue (value : Option ConstantValue) (f : FieldRecord) : FieldRecord :=
  { f with constantValue := value.or f.constantValue }

def withFieldAnnotations (more : List AnnotationRecord) (f : FieldRecord) : FieldRecord :=
  { f with annotations := f.annotations ++ more }

theorem partOf_constantAttribute {value : Option ConstantValue} (h : ∀ v ∈ value, v.Fits) :
    PartOf (fieldAttribute options) (withConstantValue value) []
      (Descriptor.constantAttribute value) := by
  cases value with
  | none => exact partOf_none _
  | some v =>
    have hbody : Yields (word16 <$> constantValue v) [] fun pool bytes =>
        Reads (Decoder.lookUp (Descriptor.constantValue pool)) bytes v :=
      ((yields_constantValue (h v rfl)).mono fun _ _ hvalue => Decoder.reads_lookUp hvalue).bind_pure
    exact partOf_some (fun v => withConstantValue (some v)) (by decide) (sized_word16 _)
      (by decide) hbody fun _ _ => rfl

theorem yields_writeField {f : FieldRecord} (h : f.Fits) :
    Yields (Descriptor.writeField f) [] fun pool bytes =>
      Reads (Descriptor.field options pool) bytes (f.reread, f.issues) := by
  refine (yields_text h.name).bind fun name => ?_
  refine (yields_text h.descriptor).bind fun descriptor => ?_
  have hsignature : PartOf (fieldAttribute options) (withFieldSignature f.signature) [] _ :=
    partOf_signatureAttribute withFieldSignature h.signature rfl fun _ _ => rfl
  have hannotations : PartOf (fieldAttribute options) (withFieldAnnotations f.annotations) [] _ :=
    partOf_annotationsAttribute withFieldAnnotations h.annotations h.annotationsBody
      (by funext f; simp [withFieldAnnotations]) fun _ _ => rfl
  refine hsignature.bind fun signature hfits => ?_
  refine (partOf_constantAttribute options h.constantValue).bind fun constant hfits' => ?_
  refine hannotations.bind fun annotations hfits'' => ?_
  refine ((yields_writeAttributes ((hfits.append hfits').append hfits'') (by decide)).mono ?_).bind_pure
  intro pool table htable hannotations hconstant hsignature hdescriptor hname
  have hread := htable (((hsignature.append hconstant).append hannotations)
    (bareField f.access.bits f.name f.descriptor))
  have hknown : (withFieldAnnotations f.annotations ∘ withConstantValue f.constantValue ∘
      withFieldSignature f.signature) (bareField f.access.bits f.name f.descriptor) =
        { f with parsedSignature := none } := by
    simp [withFieldAnnotations, withConstantValue, withFieldSignature, bareField]
  rw [hknown] at hread
  rw [List.append_assoc, List.append_assoc]
  refine (Decoder.reads_word16 _).bind ((Decoder.reads_lookUp hname).bind
    ((Decoder.reads_lookUp hdescriptor).bind ?_))
  simp only [parsed_eq]
  exact hread.bind_pure _

/-! ## Methods -/

/-- What is known of a method behind an attribute. -/
def withMethodSignature (text : Option String) (m : MethodRecord) : MethodRecord :=
  { m with signature := text.or m.signature }

def withExceptions (more : List String) (m : MethodRecord) : MethodRecord :=
  { m with exceptions := m.exceptions ++ more }

def withMethodAnnotations (more : List AnnotationRecord) (m : MethodRecord) : MethodRecord :=
  { m with annotations := m.annotations ++ more }

def withParameters (more : List (List AnnotationRecord)) (m : MethodRecord) : MethodRecord :=
  { m with parameterAnnotations := Descriptor.mergeParameters m.parameterAnnotations more }

def withDefault (value : Option ElementValue) (m : MethodRecord) : MethodRecord :=
  { m with annotationDefault := value.or m.annotationDefault }

theorem mergeParameters_nil (more : List (List AnnotationRecord)) :
    Descriptor.mergeParameters [] more = more := by
  cases more <;> rfl

theorem sized_writeCounted {α : Type} {write : α → Writer Bytes} {size : Nat}
    (h : ∀ a, Sized (write a) size) (items : List α) :
    Sized (Descriptor.writeCounted write items) (2 + items.length * size) := by
  refine (sized_writeEach h items).bind fun body hbody => sized_pure ?_
  simp [hbody, Descriptor.count, List.map_const']

theorem sized_writeParameters (parameters : List (List AnnotationRecord)) :
    Sized (Descriptor.writeParameters parameters) (1 + (parameters.map annotationsSize).sum) := by
  refine (sized_writeEach sized_writeAnnotations parameters).bind fun body hbody => sized_pure ?_
  simp [hbody, Nat.add_comm]

theorem partOf_exceptions {exceptions : List String} (hcount : CountFits exceptions)
    (h : ∀ name ∈ exceptions, ClassNameFits name) :
    PartOf (methodAttribute options) (withExceptions exceptions) (exceptions.map Name.slashed)
      (Descriptor.attributeIf (!exceptions.isEmpty) "Exceptions"
        (Descriptor.writeCounted Descriptor.writeClass exceptions)) := by
  have hsized : Sized (Descriptor.writeCounted Descriptor.writeClass exceptions)
      (2 + exceptions.length * 2) := sized_writeCounted (fun _ => sized_word16 _) exceptions
  refine partOf_attributeIf withExceptions (by decide) hsized ?_ ?_ ?_ (yields_writeClasses hcount h)
    fun _ _ => rfl
  · unfold CountFits at hcount
    unfold BodyFits
    omega
  · funext m
    simp [withExceptions]
  · rintro rfl
    rfl

theorem partOf_parameters {parameters : List (List AnnotationRecord)}
    (hcount : parameters.length ≤ 255) (h : ∀ annotations ∈ parameters, AnnotationsFit annotations)
    (hbody : BodyFits (1 + (parameters.map annotationsSize).sum)) :
    PartOf (methodAttribute options) (withParameters parameters) []
      (Descriptor.attributeIf (!parameters.isEmpty) "RuntimeVisibleParameterAnnotations"
        (Descriptor.writeParameters parameters)) := by
  refine partOf_attributeIf withParameters (by decide) (sized_writeParameters parameters) hbody ?_
    (fun _ => rfl) (yields_writeParameters hcount h) fun _ _ => rfl
  funext m
  simp [withParameters, Descriptor.mergeParameters]

theorem partOf_defaultAttribute {value : Option ElementValue}
    (h : ∀ v ∈ value, v.Fits ∧ v.nesting ≤ AnnotationRecord.maxNesting ∧ BodyFits v.size) :
    PartOf (methodAttribute options) (withDefault value) [] (Descriptor.defaultAttribute value) := by
  cases value with
  | none => exact partOf_none _
  | some v =>
    obtain ⟨hfits, hnesting, hbody⟩ := h v rfl
    have hread : Yields (Descriptor.writeValue v) [] fun pool bytes =>
        Reads (AnnotationRecord.decodeOuterValue pool) bytes v :=
      (yields_writeValue v hfits).mono fun _ _ hback => hback _ (Nat.lt_succ_of_le hnesting)
    exact partOf_some (fun v => withDefault (some v)) (by decide) (sized_writeValue v) hbody hread
      fun _ _ => rfl

theorem yields_writeMethod {m : MethodRecord} (h : m.Fits) :
    Yields (Descriptor.writeMethod m) (m.exceptions.map Name.slashed) fun pool bytes =>
      Reads (Descriptor.method options pool) bytes (m.reread, m.issues) := by
  refine (yields_text h.name).bind fun name => ?_
  refine (yields_text h.descriptor).bind fun descriptor => ?_
  have hsignature : PartOf (methodAttribute options) (withMethodSignature m.signature) [] _ :=
    partOf_signatureAttribute withMethodSignature h.signature rfl fun _ _ => rfl
  have hannotations : PartOf (methodAttribute options) (withMethodAnnotations m.annotations) [] _ :=
    partOf_annotationsAttribute withMethodAnnotations h.annotations h.annotationsBody
      (by funext m; simp [withMethodAnnotations]) fun _ _ => rfl
  refine hsignature.bind fun signature hs => ?_
  rw [← List.append_nil (m.exceptions.map Name.slashed)]
  refine (partOf_exceptions options h.exceptionCount h.exceptions).bind fun exceptions he => ?_
  refine hannotations.bind fun annotations ha => ?_
  refine (partOf_parameters options h.parameterCount h.parameters h.parametersBody).bind
    fun parameters hp => ?_
  refine (partOf_defaultAttribute options h.default).bind fun default hd => ?_
  have hfits := (((hs.append he).append ha).append hp).append hd
  refine ((yields_writeAttributes hfits (by decide)).mono ?_).bind_pure
  intro pool table htable hdefault hparameters hannotations hexceptions hsignature hdescriptor hname
  have hread := htable (((((hsignature.append hexceptions).append hannotations).append
    hparameters).append hdefault) (bareMethod m.access.bits m.name m.descriptor))
  have hknown : (withDefault m.annotationDefault ∘ withParameters m.parameterAnnotations ∘
      withMethodAnnotations m.annotations ∘ withExceptions m.exceptions ∘
        withMethodSignature m.signature) (bareMethod m.access.bits m.name m.descriptor) =
          { m with parsedSignature := none } := by
    simp [withDefault, withParameters, withMethodAnnotations, withExceptions, withMethodSignature,
      bareMethod, mergeParameters_nil]
  rw [hknown] at hread
  rw [List.append_assoc, List.append_assoc]
  refine (Decoder.reads_word16 _).bind ((Decoder.reads_lookUp hname).bind
    ((Decoder.reads_lookUp hdescriptor).bind ?_))
  simp only [parsed_eq]
  exact hread.bind_pure _

end PoolBuilder

end ClassAtlas
