-- The round trip of class descriptors. A class that fits the format is read back from its
-- descriptor, whatever the options are, with its signature texts parsed and the classes of
-- its pool listed.
import ClassAtlas.Proofs.Descriptor.Members
import ClassAtlas.Proofs.Descriptor.References

namespace ClassAtlas

open Decoder (Reads)
open BigEndian (word16)

/-! ## The class -/

/-- The class names of an entry of the table of inner classes. -/
def InnerClass.classes (e : InnerClass) : List String := e.inner :: e.outer.toList

/-- The classes that a descriptor of the class names, in the order they are written in. -/
def ClassRecord.writtenClasses (r : ClassRecord) : List String :=
  r.name :: (r.superclass.toList ++ (r.interfaces ++ (r.methods.flatMap MethodRecord.exceptions ++
    (r.innerClasses.flatMap InnerClass.classes ++ r.referencedClasses))))

/-- What is read back of a class: the class itself with its signature texts parsed and with
its outer class and its referenced classes taken from what was written. -/
def ClassRecord.reread (r : ClassRecord) : DecodedClass where
  record := { r with
    fields := r.fields.map FieldRecord.reread
    methods := r.methods.map MethodRecord.reread
    parsedSignature := readText ClassSignature.parse r.signature
    outerClass := Descriptor.outerClass r.name r.innerClasses
    referencedClasses := Descriptor.referencedClasses r.name (r.writtenClasses.map Name.slashed) }
  issues := r.fields.flatMap FieldRecord.issues ++ r.methods.flatMap MethodRecord.issues ++
    textIssues ClassSignature.parse "class signature" r.signature

namespace PoolBuilder

open Descriptor (Visits Applies TableFits classAttribute)

variable (options : DecodeOptions)

/-- What is known of a class behind an attribute. -/
def withClassSignature (text : Option String) (r : ClassRecord) : ClassRecord :=
  { r with signature := text.or r.signature }

def withClassAnnotations (more : List AnnotationRecord) (r : ClassRecord) : ClassRecord :=
  { r with annotations := r.annotations ++ more }

def withInnerClasses : List InnerClass → ClassRecord → ClassRecord
  | [], r => r
  | entries, r => { r with innerClasses := entries }

theorem map_dotted_slashed {name : Option String} (h : ∀ n ∈ name, ClassNameFits n) :
    (name.map Name.slashed).map Name.dotted = name := by
  cases name with
  | none => rfl
  | some n => simp [Name.dotted_slashed (h n rfl).dotted]

theorem yields_writeInnerClass {e : InnerClass} (h : e.Fits) :
    Yields (Descriptor.writeInnerClass e) (e.classes.map Name.slashed) fun pool bytes =>
      Reads (Descriptor.innerClass pool) bytes e := by
  have htexts : e.classes.map Name.slashed =
      [Name.slashed e.inner] ++ (e.outer.toList.map Name.slashed ++ []) := by
    simp [InnerClass.classes]
  rw [htexts]
  refine (yields_classRef h.inner).bind fun inner => ?_
  refine (yields_optionalClass h.outer).bind fun outer => ?_
  refine ((yields_optionalText h.simpleName).mono
    fun pool simpleName hsimple houter hinner => ?_).bind_pure
  have hclass := (Decoder.reads_lookUp hinner).map Name.dotted
  have hoptional := (Decoder.reads_lookUp houter).bind_pure fun name => name.map Name.dotted
  rw [Name.dotted_slashed h.inner.dotted] at hclass
  rw [map_dotted_slashed h.outer] at hoptional
  rw [List.append_assoc, List.append_assoc]
  exact hclass.bind (hoptional.bind ((Decoder.reads_lookUp hsimple).bind
    ((Decoder.reads_word16 e.access.bits).bind_pure _)))

theorem partOf_innerClasses {entries : List InnerClass} (hcount : CountFits entries)
    (h : ∀ e ∈ entries, e.Fits) :
    PartOf (classAttribute options) (withInnerClasses entries)
      ((entries.flatMap InnerClass.classes).map Name.slashed)
      (Descriptor.attributeIf (!entries.isEmpty) "InnerClasses"
        (Descriptor.writeCounted Descriptor.writeInnerClass entries)) := by
  cases entries with
  | nil => exact partOf_none _
  | cons e rest =>
    have hall : Yields (Descriptor.writeCounted Descriptor.writeInnerClass (e :: rest))
        ((e :: rest).flatMap fun e => e.classes.map Name.slashed) fun pool bytes =>
          Reads (Decoder.counted (Descriptor.innerClass pool)) bytes ((e :: rest).map id) :=
      yields_writeCounted hcount fun e he => yields_writeInnerClass (h e he)
    rw [List.map_id] at hall
    rw [List.map_flatMap]
    have hsized : Sized (Descriptor.writeCounted Descriptor.writeInnerClass (e :: rest))
        (2 + (e :: rest).length * 8) := by
      refine sized_writeCounted (fun e => ?_) _
      exact sized_bind fun _ => sized_bind fun _ => sized_bind fun _ => sized_pure rfl
    have hbody : BodyFits (2 + (e :: rest).length * 8) := by
      unfold CountFits at hcount
      unfold BodyFits
      omega
    exact partOf_some (fun entries (r : ClassRecord) => { r with innerClasses := entries })
      (by decide) hsized hbody hall fun _ _ => rfl

/-- What is known of a class before its attributes. -/
def bareClass (r : ClassRecord) : ClassRecord where
  name := r.name
  access := r.access
  minorVersion := r.minorVersion
  majorVersion := r.majorVersion
  superclass := r.superclass
  interfaces := r.interfaces
  fields := r.fields.map FieldRecord.reread
  methods := r.methods.map MethodRecord.reread
  annotations := []
  signature := none
  parsedSignature := none
  outerClass := none
  innerClasses := []
  referencedClasses := []

theorem withAttributes_bareClass (r : ClassRecord) :
    (withInnerClasses r.innerClasses ∘ withClassAnnotations r.annotations ∘
      withClassSignature r.signature) (bareClass r) =
        { bareClass r with
          annotations := r.annotations, signature := r.signature, innerClasses := r.innerClasses } := by
  cases hentries : r.innerClasses <;>
    simp [withInnerClasses, withClassAnnotations, withClassSignature, bareClass]

theorem yields_writeFields {fields : List FieldRecord} (hcount : CountFits fields)
    (h : ∀ f ∈ fields, f.Fits) :
    Yields (Descriptor.writeCounted Descriptor.writeField fields) [] fun pool bytes =>
      Reads (Decoder.counted (Descriptor.field options pool)) bytes
        (fields.map fun f => (f.reread, f.issues)) := by
  have hnone : fields.flatMap (fun _ => ([] : List String)) = [] :=
    List.flatMap_eq_nil_iff.mpr fun _ _ => rfl
  rw [← hnone]
  exact yields_writeCounted hcount fun f hf => yields_writeField options (h f hf)

theorem yields_writeMethods {methods : List MethodRecord} (hcount : CountFits methods)
    (h : ∀ m ∈ methods, m.Fits) :
    Yields (Descriptor.writeCounted Descriptor.writeMethod methods)
      (methods.flatMap fun m => m.exceptions.map Name.slashed) fun pool bytes =>
        Reads (Decoder.counted (Descriptor.method options pool)) bytes
          (methods.map fun m => (m.reread, m.issues)) :=
  yields_writeCounted hcount fun m hm => yields_writeMethod options (h m hm)

/-- The classes that a record names otherwise are only put into the pool. -/
theorem yields_writeReferenced {names : List String} (h : ∀ name ∈ names, ClassNameFits name) :
    Yields (Descriptor.writeEach Descriptor.writeClass names) (names.map Name.slashed)
      fun _ _ => True := by
  rw [List.map_eq_flatMap]
  have hall : Yields (Descriptor.writeEach Descriptor.writeClass names)
      (names.flatMap fun name => [Name.slashed name]) fun pool bytes =>
        Reads (Decoder.times names.length (Descriptor.className pool)) bytes (names.map id) :=
    yields_writeEach fun name hname => yields_writeClass (h name hname)
  exact hall.mono fun _ _ _ => trivial

theorem yields_writeBody {r : ClassRecord} (h : r.Fits) :
    Yields (Descriptor.writeBody r) (r.writtenClasses.map Name.slashed) fun pool bytes =>
      ∀ names, pool.classNames = .ok names →
        Descriptor.referencedClasses r.name names = r.reread.record.referencedClasses →
          Reads (Descriptor.decodeBody options r.minorVersion r.majorVersion pool) bytes r.reread := by
  have htexts : r.writtenClasses.map Name.slashed = [Name.slashed r.name] ++
      (r.superclass.toList.map Name.slashed ++ (r.interfaces.map Name.slashed ++ ([] ++
        (r.methods.flatMap (fun m => m.exceptions.map Name.slashed) ++ ([] ++ ([] ++
          ((r.innerClasses.flatMap InnerClass.classes).map Name.slashed ++
            ([] ++ (r.referencedClasses.map Name.slashed ++ []))))))))) := by
    simp [ClassRecord.writtenClasses, List.map_flatMap]
  have hsignature : PartOf (classAttribute options) (withClassSignature r.signature) [] _ :=
    partOf_signatureAttribute withClassSignature h.signature rfl fun _ _ => rfl
  have hannotations : PartOf (classAttribute options) (withClassAnnotations r.annotations) [] _ :=
    partOf_annotationsAttribute withClassAnnotations h.annotations h.annotationsBody
      (by funext r; simp [withClassAnnotations]) fun _ _ => rfl
  rw [htexts]
  refine (yields_classRef h.name).bind fun name => ?_
  refine (yields_optionalClass h.superclass).bind fun superclass => ?_
  refine (yields_writeClasses h.interfaceCount h.interfaces).bind fun interfaces => ?_
  refine (yields_writeFields options h.fieldCount h.fields).bind fun fields => ?_
  refine (yields_writeMethods options h.methodCount h.methods).bind fun methods => ?_
  refine hsignature.bind fun signature hs => ?_
  refine hannotations.bind fun annotations ha => ?_
  refine (partOf_innerClasses options h.innerClassCount h.innerClasses).bind
    fun innerClasses hi => ?_
  refine (yields_writeAttributes ((hs.append ha).append hi) (by decide)).bind fun table => ?_
  refine (yields_writeReferenced h.referencedClasses).bind fun referenced => ?_
  refine yields_pure fun pool _ htable hinner hannotations hsignature hmethods hfields hinterfaces
    hsuper hname names hnames hreferenced => ?_
  have hread := htable (((hsignature.append hannotations).append hinner) (bareClass r))
  rw [withAttributes_bareClass] at hread
  have hclass := (Decoder.reads_lookUp hname).map Name.dotted
  have hoptional := (Decoder.reads_lookUp hsuper).bind_pure fun name => name.map Name.dotted
  rw [Name.dotted_slashed h.name.dotted] at hclass
  rw [map_dotted_slashed h.superclass] at hoptional
  simp only [List.append_assoc]
  refine (Decoder.reads_word16 _).bind (hclass.bind (hoptional.bind (hinterfaces.bind
    (hfields.bind (hmethods.bind ?_)))))
  have hfieldRecords : (r.fields.map fun f => (f.reread, f.issues)).map (·.1) =
      r.fields.map FieldRecord.reread := by simp
  have hmethodRecords : (r.methods.map fun m => (m.reread, m.issues)).map (·.1) =
      r.methods.map MethodRecord.reread := by simp
  have hfieldIssues : (r.fields.map fun f => (f.reread, f.issues)).flatMap (·.2) =
      r.fields.flatMap FieldRecord.issues := by simp [List.flatMap_map]
  have hmethodIssues : (r.methods.map fun m => (m.reread, m.issues)).flatMap (·.2) =
      r.methods.flatMap MethodRecord.issues := by simp [List.flatMap_map]
  simp only [hfieldRecords, hmethodRecords, hfieldIssues, hmethodIssues, parsed_eq]
  rw [← List.append_nil table]
  refine hread.bind ((Decoder.reads_ofExcept hnames).bind ?_)
  simp only [hreferenced]
  exact Decoder.reads_pure r.reread

end PoolBuilder

/-! ## The descriptor -/

namespace Descriptor

open PoolBuilder (Grows)

theorem reads_header {minor major : UInt16} (h : oldestMajor ≤ major) :
    Reads header (BigEndian.word32 magic ++ (word16 minor ++ word16 major)) (minor, major) := by
  refine (Decoder.reads_word32 magic).bind ?_
  rw [if_neg (by simp), ← List.append_nil (word16 major)]
  refine (Decoder.reads_word16 minor).bind ((Decoder.reads_word16 major).bind ?_)
  rw [if_neg (UInt16.not_lt.mpr h)]
  exact Decoder.reads_pure _

theorem a_class_that_fits_is_read_back (options : DecodeOptions) {r : ClassRecord} (h : r.Fits) :
    decode options (encode r) = .ok r.reread := by
  have hbody := PoolBuilder.yields_writeBody options h PoolBuilder.empty
  obtain ⟨hgrows, hright⟩ := hbody
  have hsound : r.pool.Sound := hgrows.sound PoolBuilder.sound_empty
  have hheld := hsound.held h.slots
  obtain ⟨names, hnames, hlisted⟩ := hgrows.classTexts hheld rfl
  have hread := hright _ hheld names ((ConstantPool.classNames_ofConstants _).trans hnames)
    (hlisted r.name)
  have hall : Reads (decodeClass options) (BigEndian.word32 magic ++ (word16 r.minorVersion ++
      word16 r.majorVersion) ++ (word16 r.pool.next ++ r.pool.bytes ++ (writeBody r .empty).1))
        r.reread :=
    (reads_header h.version).bind ((hsound.reads h.slots).bind hread)
  have hbytes : encode r = BigEndian.word32 magic ++ (word16 r.minorVersion ++
      word16 r.majorVersion) ++ (word16 r.pool.next ++ r.pool.bytes ++ (writeBody r .empty).1) := by
    simp only [List.append_assoc]
    rfl
  have hanswer := hall 0 []
  rw [List.append_nil, ← hbytes] at hanswer
  simp only [decode, Decoder.run, Cursor.ofBytes, hanswer]

/-- A class with a wide constant, an annotation with an array, and a signature that no parser
takes. -/
def crate : ClassRecord where
  name := "store.Crate"
  access := ⟨0x0021⟩
  minorVersion := 0
  majorVersion := 52
  superclass := some "java.lang.Object"
  interfaces := ["store.Item"]
  fields := [{
    name := "weight", descriptor := "J", access := ⟨0x0018⟩, annotations := []
    signature := some "Q", parsedSignature := none, constantValue := some (.long 7) }]
  methods := [{
    name := "open", descriptor := "()V", access := ⟨0x0001⟩
    annotations := [⟨"store.Checked", [("rules", .array [.int 1, .boolean true])]⟩]
    parameterAnnotations := [], signature := none, parsedSignature := none
    exceptions := ["store.Sealed"], annotationDefault := none }]
  annotations := []
  signature := none
  parsedSignature := none
  outerClass := none
  innerClasses := [⟨"store.Crate$Lid", some "store.Crate", some "Lid", ⟨0x0009⟩⟩]
  referencedClasses := ["store.Shelf"]

theorem crate_is_read_back :
    crate.Fits ∧ decode ⟨false⟩ (encode crate) = .ok crate.reread := by
  have hname : ∀ name ∈ crate.writtenClasses, ClassNameFits name := by
    have hall : ∀ name ∈ crate.writtenClasses, '/' ∉ name.toList ∧ TextFits (Name.slashed name) := by
      decide
    exact fun name hmem => ⟨(hall name hmem).1, (hall name hmem).2⟩
  have hnone : AnnotationsFit [] := ⟨by decide, by simp⟩
  have hchecked : AnnotationRecord.Fits
      ⟨"store.Checked", [("rules", .array [.int 1, .boolean true])]⟩ := {
    typeName := ⟨by decide, by decide⟩
    count := by decide
    elements := ⟨by decide, ⟨by decide, trivial, trivial, trivial⟩, trivial⟩
    nesting := by decide }
  have hfield : ∀ f ∈ crate.fields, f.Fits := by
    intro f hf
    rw [List.mem_singleton.mp hf]
    exact {
      name := by decide
      descriptor := by decide
      signature := by simp; decide
      constantValue := by simp [ConstantValue.Fits]
      annotations := hnone
      annotationsBody := by decide }
  have hmethod : ∀ m ∈ crate.methods, m.Fits := by
    intro m hm
    rw [List.mem_singleton.mp hm]
    exact {
      name := by decide
      descriptor := by decide
      signature := by simp
      exceptionCount := by decide
      exceptions := fun name hmem => hname name (by simp_all [ClassRecord.writtenClasses, crate])
      annotations := ⟨by decide, by simpa using hchecked⟩
      annotationsBody := by decide
      parameterCount := by decide
      parameters := by simp
      parametersBody := by decide
      default := by simp }
  have hfits : crate.Fits := {
    version := by decide
    name := hname _ (by decide)
    superclass := fun name hmem => hname name (by simp_all [ClassRecord.writtenClasses, crate])
    interfaceCount := by decide
    interfaces := fun name hmem => hname name (by simp_all [ClassRecord.writtenClasses, crate])
    fieldCount := by decide
    fields := hfield
    methodCount := by decide
    methods := hmethod
    signature := by simp [crate]
    annotations := hnone
    annotationsBody := by decide
    innerClassCount := by decide
    innerClasses := by
      intro e he
      rw [List.mem_singleton.mp he]
      exact ⟨hname _ (by decide), fun name hmem => hname name (by
        simp_all [ClassRecord.writtenClasses, crate]), by simp; decide⟩
    referencedClasses := fun name hmem => hname name (by
      simp_all [ClassRecord.writtenClasses, crate])
    slots := by decide +kernel }
  exact ⟨hfits, a_class_that_fits_is_read_back ⟨false⟩ hfits⟩

end Descriptor

end ClassAtlas
