-- Annotations and their values. What is written for a value is read back as that value by
-- every reader that goes as deep as the value does.
import Mathlib.Algebra.GroupWithZero.Nat
import ClassAtlas.Proofs.Descriptor.Writing

namespace ClassAtlas

/-! ## Names -/

namespace Name

theorem dotted_slashed {name : String} (h : '/' ∉ name.toList) : dotted (slashed name) = name := by
  have hback : ∀ c ∈ name.toList,
      (if (if c = '.' then '/' else c) = '/' then '.' else if c = '.' then '/' else c) = c := by
    intro c hc
    have hne : c ≠ '/' := fun heq => h (heq ▸ hc)
    by_cases hdot : c = '.'
    · simp [hdot]
    · simp [hdot, hne]
  have hmap : name.toList.map ((fun c => if c = '/' then '.' else c) ∘
      fun c => if c = '.' then '/' else c) = name.toList.map id := List.map_congr_left hback
  unfold dotted slashed Text.replaceChar
  rw [String.toList_ofList, List.map_map, hmap, List.map_id, String.ofList_toList]

theorem ofDescriptor_descriptor {name : String} (h : '/' ∉ name.toList) :
    ofDescriptor (descriptor name) = name := by
  have htext : (descriptor name).toList = 'L' :: ((slashed name).toList ++ [';']) := by
    simp [descriptor]
  have hbare : Text.dropEnd? [';'] ((slashed name).toList ++ [';']) = some (slashed name).toList := by
    simp [Text.dropEnd?, Text.dropFront?]
  rw [ofDescriptor, htext]
  simp only [Text.dropFront?, if_true, Option.bind_some, hbare, String.ofList_toList]
  exact dotted_slashed h

end Name

namespace PoolBuilder

open Decoder (Reads)
open BigEndian (word16)

theorem yields_writeClass {name : String} (h : ClassNameFits name) :
    Yields (Descriptor.writeClass name) [Name.slashed name] fun pool bytes =>
      Reads (Descriptor.className pool) bytes name := by
  refine ((yields_classRef h).mono fun pool index hclass => ?_).bind_pure
  have hread := (Decoder.reads_lookUp hclass).map Name.dotted
  rwa [Name.dotted_slashed h.dotted] at hread

theorem yields_writeClasses {names : List String} (hcount : CountFits names)
    (h : ∀ name ∈ names, ClassNameFits name) :
    Yields (Descriptor.writeCounted Descriptor.writeClass names) (names.map Name.slashed)
      fun pool bytes => Reads (Decoder.counted (Descriptor.className pool)) bytes names := by
  have hall : Yields (Descriptor.writeCounted Descriptor.writeClass names)
      (names.flatMap fun name => [Name.slashed name]) fun pool bytes =>
        Reads (Decoder.counted (Descriptor.className pool)) bytes (names.map id) :=
    yields_writeCounted hcount fun name hname => yields_writeClass (h name hname)
  rwa [← List.map_eq_flatMap, List.map_id] at hall

/-! ## The size of what is written -/

/-- The writer gives as many bytes with every pool. -/
def Sized (writer : Writer Bytes) (size : Nat) : Prop := ∀ p, (writer p).1.length = size

theorem sized_pure {bytes : Bytes} {size : Nat} (h : bytes.length = size) :
    Sized (pure bytes) size := fun _ => h

theorem sized_bind {α : Type} {writer : Writer α} {next : α → Writer Bytes} {size : Nat}
    (h : ∀ a, Sized (next a) size) : Sized (writer >>= next) size :=
  fun p => h (writer p).1 (writer p).2

theorem Sized.bind {writer : Writer Bytes} {next : Bytes → Writer Bytes} {front size : Nat}
    (hwriter : Sized writer front) (h : ∀ bytes, bytes.length = front → Sized (next bytes) size) :
    Sized (writer >>= next) size :=
  fun p => h (writer p).1 (hwriter p) (writer p).2

theorem sized_word16 (index : Writer UInt16) : Sized (word16 <$> index) 2 :=
  fun _ => BigEndian.length_word16 _

theorem sized_tagged (tag : Char) (index : Writer UInt16) : Sized (Descriptor.tagged tag index) 3 :=
  sized_bind fun _ => sized_pure (by simp)

mutual

theorem sized_writeValue : ∀ value, Sized (Descriptor.writeValue value) value.size
  | .byte _ | .char _ | .short _ | .boolean _ | .int _ | .long _ | .float _ | .double _
  | .string _ | .classLiteral _ => sized_tagged _ _
  | .enumConstant _ _ =>
    (sized_tagged _ _).bind fun _ htype => sized_bind fun _ => sized_pure (by simp [htype, ElementValue.size])
  | .nested _ elements =>
    (sized_tagged _ _).bind fun _ htype => (sized_writeElements elements).bind fun _ hbody =>
      sized_pure (by simp [htype, hbody, Descriptor.count, ElementValue.size]; omega)
  | .array values =>
    (sized_writeValues values).bind fun _ hbody =>
      sized_pure (by simp [hbody, Descriptor.count, ElementValue.size]; omega)

theorem sized_writeElements : ∀ elements, Sized (Descriptor.writeElements elements) (elementsSize elements)
  | [] => sized_pure rfl
  | (_, value) :: rest =>
    sized_bind fun _ => (sized_writeValue value).bind fun _ hfront =>
      (sized_writeElements rest).bind fun _ hback =>
        sized_pure (by simp [hfront, hback, elementsSize]; omega)

theorem sized_writeValues : ∀ values, Sized (Descriptor.writeValues values) (valuesSize values)
  | [] => sized_pure rfl
  | value :: rest =>
    (sized_writeValue value).bind fun _ hfront => (sized_writeValues rest).bind fun _ hback =>
      sized_pure (by simp [hfront, hback, valuesSize])

end

theorem sized_writeEach {α : Type} {write : α → Writer Bytes} {size : α → Nat}
    (h : ∀ a, Sized (write a) (size a)) (items : List α) :
    Sized (Descriptor.writeEach write items) (items.map size).sum := by
  induction items with
  | nil => exact sized_pure rfl
  | cons a rest ih =>
    refine (h a).bind fun front hfront => ih.bind fun back hback => sized_pure ?_
    simp [hfront, hback]

theorem sized_writeAnnotations (annotations : List AnnotationRecord) :
    Sized (Descriptor.writeAnnotations annotations) (annotationsSize annotations) := by
  have hone : ∀ a, Sized (Descriptor.writeAnnotation a) a.size := fun a =>
    sized_bind fun _ => (sized_writeElements a.elements).bind fun _ hbody =>
      sized_pure (by simp [hbody, Descriptor.count, AnnotationRecord.size]; omega)
  refine (sized_writeEach hone annotations).bind fun body hbody => sized_pure ?_
  simp [hbody, Descriptor.count, annotationsSize]

/-! ## Values -/

open AnnotationRecord (charOfCode decodeTagged decodeValue)

/-- A value is read back from its bytes by every reader that goes deep enough. -/
def ReadsBack (pool : ConstantPool) (value : ElementValue) (bytes : Bytes) : Prop :=
  ∀ levels, value.nesting < levels → Reads (decodeValue pool levels) bytes value

theorem decodeValue_succ (pool : ConstantPool) (levels : Nat) :
    decodeValue pool (levels + 1) = Decoder.u1 >>=
      decodeTagged pool (decodeValue pool levels) (decodeValue pool (levels - 1)) := by
  cases levels <;> rfl

theorem char_of_tag {tag : Char} (h : tag.toNat < 128) :
    Char.ofNat (UInt8.ofNat tag.toNat).toNat = tag := by
  have hbyte : (UInt8.ofNat tag.toNat).toNat = tag.toNat := by
    rw [UInt8.toNat_ofNat']
    omega
  rw [hbyte, Char.ofNat_toNat]

/-- Behind its tag, a value is read by the branch of that tag. -/
theorem readsBack_of_tag {pool : ConstantPool} {value : ElementValue} {tag : Char} {rest : Bytes}
    (htag : tag.toNat < 128)
    (h : ∀ levels, value.nesting ≤ levels → ∀ byte, Char.ofNat byte.toNat = tag →
      Reads (decodeTagged pool (decodeValue pool levels) (decodeValue pool (levels - 1)) byte)
        rest value) :
    ReadsBack pool value (UInt8.ofNat tag.toNat :: rest) := by
  intro levels hlevels
  cases levels with
  | zero => omega
  | succ levels =>
    rw [decodeValue_succ]
    exact (Decoder.reads_u1 _).bind (h levels (by omega) _ (char_of_tag htag))

theorem yields_tagged (tag : Char) {index : Writer UInt16} {right : ConstantPool → UInt16 → Prop}
    (hindex : Yields index [] right) :
    Yields (Descriptor.tagged tag index) [] fun pool bytes =>
      ∃ i, bytes = UInt8.ofNat tag.toNat :: word16 i ∧ right pool i :=
  (hindex.mono fun _ i hright => ⟨i, rfl, hright⟩).bind_pure

/-- A value that is a tag and the index of one constant. -/
theorem yields_leaf {tag : Char} {index : Writer UInt16} {right : ConstantPool → UInt16 → Prop}
    {value : ElementValue} (htag : tag.toNat < 128) (hindex : Yields index [] right)
    (h : ∀ pool i, right pool i → ∀ item inner byte, Char.ofNat byte.toNat = tag →
      Reads (decodeTagged pool item inner byte) (word16 i) value) :
    Yields (Descriptor.tagged tag index) [] fun pool bytes => ReadsBack pool value bytes := by
  refine (yields_tagged tag hindex).mono fun pool bytes hbytes => ?_
  obtain ⟨i, rfl, hright⟩ := hbytes
  exact readsBack_of_tag htag fun _ _ byte hbyte => h pool i hright _ _ byte hbyte

theorem yields_integer (value : Int32) :
    Yields (intern (.integer value)) [] fun pool i => pool.integer i = .ok value :=
  (yields_intern (c := .integer value) trivial (by simp)).mono fun _ _ hget => pick_of_get hget rfl

theorem charOfCode_val (c : Char) : charOfCode c.val.toInt32.toUInt32 = c := by
  have hval : c.val.toInt32.toUInt32 = c.val := by simp
  rw [hval, charOfCode, dif_pos c.valid]

/-- Small numbers are written as integers and cut down again when they are read. -/
theorem yields_integerLeaf {tag : Char} {n : Int32} {value : ElementValue} (put : Int32 → ElementValue)
    (htag : tag.toNat < 128) (hput : put n = value)
    (h : ∀ pool item inner byte, Char.ofNat byte.toNat = tag →
      decodeTagged pool item inner byte = do return put (← Decoder.lookUp pool.integer)) :
    Yields (Descriptor.tagged tag (intern (.integer n))) [] fun pool bytes =>
      ReadsBack pool value bytes := by
  refine yields_leaf htag (yields_integer n) fun pool i hget item inner byte hbyte => ?_
  rw [h pool item inner byte hbyte, ← hput]
  exact (Decoder.reads_lookUp hget).bind_pure put

theorem nesting_le_elementsNesting {elements : List (String × ElementValue)} :
    ∀ e ∈ elements, e.2.nesting + 2 ≤ elementsNesting elements := by
  induction elements with
  | nil => simp
  | cons e rest ih =>
    intro d hd
    rw [elementsNesting]
    rcases List.mem_cons.mp hd with rfl | hd
    · omega
    · have hrest := ih d hd
      omega

theorem nesting_le_valuesNesting {values : List ElementValue} :
    ∀ v ∈ values, v.nesting + 1 ≤ valuesNesting values := by
  induction values with
  | nil => simp
  | cons v rest ih =>
    intro w hw
    rw [valuesNesting]
    rcases List.mem_cons.mp hw with rfl | hw
    · omega
    · have hrest := ih w hw
      omega

/-- The reader of the named values of an annotation, as deep as `levels`. -/
def decodeElement (pool : ConstantPool) (levels : Nat) : Decoder (String × ElementValue) := do
  let name ← Decoder.lookUp pool.text
  let value ← decodeValue pool levels
  return (name, value)

/-- The type of an annotation, the number of its values and the values. -/
theorem reads_decodeWith {pool : ConstantPool} {levels : Nat} {typeName : String} {i : UInt16}
    {body : Bytes} {elements : List (String × ElementValue)} (hname : TypeNameFits typeName)
    (hcount : CountFits elements) (htype : pool.text i = .ok (Name.descriptor typeName))
    (hbody : Reads (Decoder.times elements.length (decodeElement pool levels)) body elements) :
    Reads (AnnotationRecord.decodeWith pool (decodeValue pool levels))
      (word16 i ++ (Descriptor.count elements.length ++ body)) ⟨typeName, elements⟩ := by
  refine (Decoder.reads_lookUp htype).bind ?_
  simp only [Name.ofDescriptor_descriptor hname.dotted]
  exact (Decoder.reads_counted hcount hbody).bind_pure _

mutual

theorem yields_writeValue : ∀ value : ElementValue, value.Fits →
    Yields (Descriptor.writeValue value) [] fun pool bytes => ReadsBack pool value bytes
  | .byte value, _ =>
    yields_integerLeaf (fun n => .byte n.toInt8) (by decide) (by simp) fun _ _ _ _ htag => by
      rw [decodeTagged, htag]
      rfl
  | .char value, _ =>
    yields_integerLeaf (fun n => .char (charOfCode n.toUInt32)) (by decide)
      (congrArg _ (charOfCode_val value)) fun _ _ _ _ htag => by
        rw [decodeTagged, htag]
        rfl
  | .short value, _ =>
    yields_integerLeaf (fun n => .short n.toInt16) (by decide) (by simp) fun _ _ _ _ htag => by
      rw [decodeTagged, htag]
      rfl
  | .boolean value, _ =>
    yields_integerLeaf (fun n => .boolean (n != 0)) (by decide) (by cases value <;> rfl)
      fun _ _ _ _ htag => by
        rw [decodeTagged, htag]
        rfl
  | .int value, _ =>
    yields_integerLeaf .int (by decide) rfl fun _ _ _ _ htag => by
      rw [decodeTagged, htag]
      rfl
  | .long value, _ =>
    yields_leaf (by decide) (yields_intern (c := .long value) trivial (by simp))
      fun pool i hget _ _ _ htag => by
        have hlook : pool.long i = .ok value := pick_of_get hget rfl
        rw [decodeTagged, htag]
        exact (Decoder.reads_lookUp hlook).bind_pure ElementValue.long
  | .float bits, _ =>
    yields_leaf (by decide) (yields_intern (c := .float bits) trivial (by simp))
      fun pool i hget _ _ _ htag => by
        have hlook : pool.float i = .ok bits := pick_of_get hget rfl
        rw [decodeTagged, htag]
        exact (Decoder.reads_lookUp hlook).bind_pure ElementValue.float
  | .double bits, _ =>
    yields_leaf (by decide) (yields_intern (c := .double bits) trivial (by simp))
      fun pool i hget _ _ _ htag => by
        have hlook : pool.double i = .ok bits := pick_of_get hget rfl
        rw [decodeTagged, htag]
        exact (Decoder.reads_lookUp hlook).bind_pure ElementValue.double
  | .string value, hfits =>
    yields_leaf (by decide) (yields_text hfits) fun pool i htext _ _ _ htag => by
      rw [decodeTagged, htag]
      exact (Decoder.reads_lookUp htext).bind_pure ElementValue.string
  | .classLiteral descriptor, hfits =>
    yields_leaf (by decide) (yields_text hfits) fun pool i htext _ _ _ htag => by
      rw [decodeTagged, htag]
      exact (Decoder.reads_lookUp htext).bind_pure ElementValue.classLiteral
  | .enumConstant typeName constant, hfits => by
    refine (yields_tagged 'e' (yields_text hfits.1.short)).bind fun typeBytes => ?_
    refine ((yields_text hfits.2).mono fun pool j hconstant htype => ?_).bind_pure
    obtain ⟨i, rfl, htype⟩ := htype
    refine readsBack_of_tag (by decide) fun levels _ byte htag => ?_
    rw [decodeTagged, htag]
    refine (Decoder.reads_lookUp htype).bind ?_
    simp only [Name.ofDescriptor_descriptor hfits.1.dotted]
    exact (Decoder.reads_lookUp hconstant).bind_pure _
  | .nested typeName elements, hfits => by
    refine (yields_tagged '@' (yields_text hfits.1.short)).bind fun typeBytes => ?_
    refine ((yields_writeElements elements hfits.2.2).mono fun pool body hbody htype => ?_).bind_pure
    obtain ⟨i, rfl, htype⟩ := htype
    rw [List.append_assoc]
    refine readsBack_of_tag (by decide) fun levels hlevels byte htag => ?_
    have hinner := hbody (levels - 1) fun e he => by
      have hle := nesting_le_elementsNesting e he
      rw [ElementValue.nesting] at hlevels
      omega
    have hread := reads_decodeWith hfits.1 hfits.2.1 htype hinner
    rw [decodeTagged, htag]
    exact hread.bind_pure fun a => ElementValue.nested a.typeName a.elements
  | .array values, hfits => by
    refine ((yields_writeValues values hfits.2).mono fun pool body hbody => ?_).bind_pure
    refine readsBack_of_tag (by decide) fun levels hlevels byte htag => ?_
    rw [decodeTagged, htag]
    refine (Decoder.reads_counted hfits.1 (hbody levels fun v hv => ?_)).bind_pure ElementValue.array
    have hv := nesting_le_valuesNesting v hv
    rw [ElementValue.nesting] at hlevels
    omega

theorem yields_writeElements : ∀ elements, ElementsFit elements →
    Yields (Descriptor.writeElements elements) [] fun pool bytes =>
      ∀ levels, (∀ e ∈ elements, e.2.nesting < levels) →
        Reads (Decoder.times elements.length (decodeElement pool levels)) bytes elements
  | [], _ => yields_pure fun _ _ _ => Decoder.reads_times_zero _
  | (name, value) :: rest, hfits => by
    refine (yields_text hfits.1).bind fun index => ?_
    refine (yields_writeValue value hfits.2.1).bind fun front => ?_
    refine ((yields_writeElements rest hfits.2.2).mono ?_).bind_pure
    intro pool back hback hfront hname levels hlevels
    have hvalue := hfront levels (hlevels (name, value) (by simp))
    have hrest := hback levels fun e he => hlevels e (by simp [he])
    exact Decoder.reads_times_succ ((Decoder.reads_lookUp hname).bind (hvalue.bind_pure _)) hrest

theorem yields_writeValues : ∀ values, ValuesFit values →
    Yields (Descriptor.writeValues values) [] fun pool bytes =>
      ∀ levels, (∀ v ∈ values, v.nesting < levels) →
        Reads (Decoder.times values.length (decodeValue pool levels)) bytes values
  | [], _ => yields_pure fun _ _ _ => Decoder.reads_times_zero _
  | value :: rest, hfits => by
    refine (yields_writeValue value hfits.1).bind fun front => ?_
    refine ((yields_writeValues rest hfits.2).mono ?_).bind_pure
    intro pool back hback hfront levels hlevels
    have hvalue := hfront levels (hlevels value (by simp))
    exact Decoder.reads_times_succ hvalue (hback levels fun v hv => hlevels v (by simp [hv]))

end

/-! ## Annotations -/

theorem yields_writeAnnotation {a : AnnotationRecord} (h : a.Fits) :
    Yields (Descriptor.writeAnnotation a) [] fun pool bytes =>
      Reads (AnnotationRecord.decode pool) bytes a := by
  refine (yields_text h.typeName.short).bind fun index => ?_
  refine ((yields_writeElements a.elements h.elements).mono fun pool body hbody htype => ?_).bind_pure
  rw [List.append_assoc]
  exact reads_decodeWith h.typeName h.count htype (hbody _ h.nesting)

theorem yields_writeAnnotations {annotations : List AnnotationRecord} (h : AnnotationsFit annotations) :
    Yields (Descriptor.writeAnnotations annotations) [] fun pool bytes =>
      Reads (AnnotationRecord.decodeList pool) bytes annotations := by
  have hall := yields_writeEach_same fun a ha => yields_writeAnnotation (h.2 a ha)
  exact (hall.mono fun _ _ hbody => Decoder.reads_counted h.1 hbody).bind_pure

theorem yields_writeParameters {parameters : List (List AnnotationRecord)}
    (hcount : parameters.length ≤ 255) (h : ∀ annotations ∈ parameters, AnnotationsFit annotations) :
    Yields (Descriptor.writeParameters parameters) [] fun pool bytes =>
      Reads (AnnotationRecord.decodeParameters pool) bytes parameters := by
  have hlength : (UInt8.ofNat parameters.length).toNat = parameters.length := by
    rw [UInt8.toNat_ofNat']
    omega
  have hall := yields_writeEach_same fun annotations hmem =>
    yields_writeAnnotations (h annotations hmem)
  refine (hall.mono fun pool body hbody => ?_).bind_pure
  refine (Decoder.reads_u1 _).bind ?_
  rw [hlength]
  exact hbody

end PoolBuilder

end ClassAtlas
