-- Writing a class that was read. What was read of any bytes can be written and read again when
-- its texts and lists are short enough, and the second descriptor is written as the first one:
-- the classes that are only referenced may be listed in another order, but those that stand
-- elsewhere in the class are in the pool before, and the others keep their order.
import Mathlib.Data.List.Nodup
import Mathlib.Tactic.MkIffOfInductiveProp
import ClassAtlas.Proofs.Descriptor.Decoded

namespace ClassAtlas

/-! ## The limits of a class that was read -/

mutual

/-- The texts and lists of an annotation value are short enough. -/
def ElementValue.Short : ElementValue → Prop
  | .string value => TextFits value
  | .enumConstant typeName constant => TextFits (Name.descriptor typeName) ∧ TextFits constant
  | .classLiteral descriptor => TextFits descriptor
  | .nested typeName elements =>
    TextFits (Name.descriptor typeName) ∧ CountFits elements ∧ ElementsShort elements
  | .array values => CountFits values ∧ ValuesShort values
  | _ => True

def ElementsShort : List (String × ElementValue) → Prop
  | [] => True
  | (name, value) :: rest => TextFits name ∧ value.Short ∧ ElementsShort rest

def ValuesShort : List ElementValue → Prop
  | [] => True
  | value :: rest => value.Short ∧ ValuesShort rest

end

mutual

theorem ElementValue.fits : ∀ v : ElementValue, v.Dotted → v.Short → v.Fits
  | .byte _, _, _ | .char _, _, _ | .short _, _, _ | .boolean _, _, _ | .int _, _, _
  | .long _, _, _ | .float _, _, _ | .double _, _, _ => trivial
  | .string _, _, hshort | .classLiteral _, _, hshort => hshort
  | .enumConstant _ _, hdotted, ⟨htype, hconstant⟩ => ⟨⟨hdotted, htype⟩, hconstant⟩
  | .nested _ elements, ⟨hdotted, hinner⟩, ⟨htype, hcount, hshort⟩ =>
    ⟨⟨hdotted, htype⟩, hcount, elementsFit elements hinner hshort⟩
  | .array values, hdotted, ⟨hcount, hshort⟩ => ⟨hcount, valuesFit values hdotted hshort⟩

theorem elementsFit : ∀ elements, ElementsDotted elements → ElementsShort elements → ElementsFit elements
  | [], _, _ => trivial
  | (_, value) :: rest, ⟨hvalue, hrest⟩, ⟨hname, hshort, hshorts⟩ =>
    ⟨hname, value.fits hvalue hshort, elementsFit rest hrest hshorts⟩

theorem valuesFit : ∀ values, ValuesDotted values → ValuesShort values → ValuesFit values
  | [], _, _ => trivial
  | value :: rest, ⟨hvalue, hrest⟩, ⟨hshort, hshorts⟩ =>
    ⟨value.fits hvalue hshort, valuesFit rest hrest hshorts⟩

end

@[mk_iff]
structure AnnotationRecord.WithinLimits (a : AnnotationRecord) : Prop where
  typeName : TextFits (Name.descriptor a.typeName)
  count : CountFits a.elements
  elements : ElementsShort a.elements

@[mk_iff]
structure AnnotationsWithinLimits (annotations : List AnnotationRecord) : Prop where
  count : CountFits annotations
  each : ∀ a ∈ annotations, a.WithinLimits

theorem annotationsFit {annotations : List AnnotationRecord} (h : ∀ a ∈ annotations, a.Normal)
    (hlimits : AnnotationsWithinLimits annotations) : AnnotationsFit annotations := by
  refine ⟨hlimits.count, fun a ha => ?_⟩
  have helements := (h a ha).elements
  exact {
    typeName := ⟨(h a ha).typeName, (hlimits.each a ha).typeName⟩
    count := (hlimits.each a ha).count
    elements := elementsFit a.elements (elementsDotted_of_forall fun e he => (helements e he).1)
      (hlimits.each a ha).elements
    nesting := fun e he => (helements e he).2 }

@[mk_iff]
structure FieldRecord.WithinLimits (f : FieldRecord) : Prop where
  name : TextFits f.name
  descriptor : TextFits f.descriptor
  signature : ∀ text ∈ f.signature, TextFits text
  constantValue : ∀ value ∈ f.constantValue, value.Fits
  annotations : AnnotationsWithinLimits f.annotations
  annotationsBody : BodyFits (annotationsSize f.annotations)

@[mk_iff]
structure MethodRecord.WithinLimits (m : MethodRecord) : Prop where
  name : TextFits m.name
  descriptor : TextFits m.descriptor
  signature : ∀ text ∈ m.signature, TextFits text
  exceptionCount : CountFits m.exceptions
  annotations : AnnotationsWithinLimits m.annotations
  annotationsBody : BodyFits (annotationsSize m.annotations)
  parameterCount : m.parameterAnnotations.length ≤ 255
  parameters : ∀ annotations ∈ m.parameterAnnotations, AnnotationsWithinLimits annotations
  parametersBody : BodyFits (1 + (m.parameterAnnotations.map annotationsSize).sum)
  default : ∀ value ∈ m.annotationDefault, value.Short ∧ BodyFits value.size

/-- The texts, lists and attributes of a class are short enough for a descriptor, and the pool has
a number for each constant. -/
@[mk_iff]
structure ClassRecord.WithinLimits (r : ClassRecord) : Prop where
  classNames : ∀ name ∈ r.writtenClasses, TextFits (Name.slashed name)
  interfaceCount : CountFits r.interfaces
  fieldCount : CountFits r.fields
  fields : ∀ f ∈ r.fields, f.WithinLimits
  methodCount : CountFits r.methods
  methods : ∀ m ∈ r.methods, m.WithinLimits
  signature : ∀ text ∈ r.signature, TextFits text
  annotations : AnnotationsWithinLimits r.annotations
  annotationsBody : BodyFits (annotationsSize r.annotations)
  innerClassCount : CountFits r.innerClasses
  simpleNames : ∀ e ∈ r.innerClasses, ∀ name ∈ e.simpleName, TextFits name
  slots : slotsOf r.pool.constants ≤ 65534

theorem FieldRecord.Normal.fits {f : FieldRecord} (h : f.Normal) (hlimits : f.WithinLimits) : f.Fits :=
  { hlimits with annotations := annotationsFit h.annotations hlimits.annotations }

theorem MethodRecord.Normal.fits {m : MethodRecord} (h : m.Normal) (hlimits : m.WithinLimits)
    (hexceptions : ∀ name ∈ m.exceptions, ClassNameFits name) : m.Fits :=
  { hlimits with
    exceptions := hexceptions
    annotations := annotationsFit h.annotations hlimits.annotations
    parameters := fun annotations hmem =>
      annotationsFit (h.parameters annotations hmem) (hlimits.parameters annotations hmem)
    default := fun v hv =>
      have hnormal := h.default v hv
      have hshort := hlimits.default v hv
      ⟨v.fits hnormal.1 hshort.1, Nat.le_of_lt_succ hnormal.2, hshort.2⟩ }

theorem ClassRecord.Normal.fits {r : ClassRecord} (h : r.Normal) (hlimits : r.WithinLimits) : r.Fits := by
  have hnames : ∀ name ∈ r.writtenClasses, ClassNameFits name :=
    fun name hname => ⟨h.dotted name hname, hlimits.classNames name hname⟩
  obtain ⟨hname, hsuper, hinterfaces, hexceptions, hinner, hreferenced⟩ :=
    ClassRecord.forall_writtenClasses.mp hnames
  exact {
    hlimits with
    version := h.version
    name := hname
    superclass := hsuper
    interfaces := hinterfaces
    fields := fun f hf => (h.fields f hf).fits (hlimits.fields f hf)
    methods := fun m hm => (h.methods m hm).fits (hlimits.methods m hm) (hexceptions m hm)
    annotations := annotationsFit h.annotations hlimits.annotations
    innerClasses := fun e he =>
      have hclasses := List.forall_mem_cons.mp (hinner e he)
      ⟨hclasses.1, fun n hn => hclasses.2 n (Option.mem_toList.mpr hn), hlimits.simpleNames e he⟩
    referencedClasses := hreferenced }

/-! ### Checking the limits -/

mutual

def ElementValue.decidableShort : ∀ v : ElementValue, Decidable v.Short
  | .byte _ | .char _ | .short _ | .boolean _ | .int _ | .long _ | .float _ | .double _ =>
    inferInstanceAs (Decidable True)
  | .string value => inferInstanceAs (Decidable (TextFits value))
  | .classLiteral descriptor => inferInstanceAs (Decidable (TextFits descriptor))
  | .enumConstant typeName constant =>
    inferInstanceAs (Decidable (TextFits (Name.descriptor typeName) ∧ TextFits constant))
  | .nested typeName elements =>
    have := decidableElementsShort elements
    inferInstanceAs (Decidable
      (TextFits (Name.descriptor typeName) ∧ CountFits elements ∧ ElementsShort elements))
  | .array values =>
    have := decidableValuesShort values
    inferInstanceAs (Decidable (CountFits values ∧ ValuesShort values))

def decidableElementsShort : ∀ elements, Decidable (ElementsShort elements)
  | [] => inferInstanceAs (Decidable True)
  | (name, value) :: rest =>
    have := value.decidableShort
    have := decidableElementsShort rest
    inferInstanceAs (Decidable (TextFits name ∧ value.Short ∧ ElementsShort rest))

def decidableValuesShort : ∀ values, Decidable (ValuesShort values)
  | [] => inferInstanceAs (Decidable True)
  | value :: rest =>
    have := value.decidableShort
    have := decidableValuesShort rest
    inferInstanceAs (Decidable (value.Short ∧ ValuesShort rest))

end

instance (v : ElementValue) : Decidable v.Short := v.decidableShort

instance (elements : List (String × ElementValue)) : Decidable (ElementsShort elements) :=
  decidableElementsShort elements

instance (value : ConstantValue) : Decidable value.Fits :=
  match value with
  | .string value => inferInstanceAs (Decidable (TextFits value))
  | .int _ | .long _ | .float _ | .double _ => inferInstanceAs (Decidable True)

instance (a : AnnotationRecord) : Decidable a.WithinLimits := decidable_of_iff' _ a.withinLimits_iff

instance (annotations : List AnnotationRecord) : Decidable (AnnotationsWithinLimits annotations) :=
  decidable_of_iff' _ (annotationsWithinLimits_iff annotations)

instance (f : FieldRecord) : Decidable f.WithinLimits := decidable_of_iff' _ f.withinLimits_iff

instance (m : MethodRecord) : Decidable m.WithinLimits := decidable_of_iff' _ m.withinLimits_iff

instance (r : ClassRecord) : Decidable r.WithinLimits := decidable_of_iff' _ r.withinLimits_iff

/-! ## What is read back -/

namespace Descriptor

theorem constantClass_slashed {name : String} (hdotted : '/' ∉ name.toList) (harray : ¬ Name.OfArray name) :
    constantClass? (Name.slashed name) = some name := by
  have hhead : ¬ (Name.slashed name).toList.head? = some '[' :=
    fun h => harray ((Name.ofArray_slashed name).mp h)
  rw [constantClass?, if_neg hhead, Name.dotted_slashed hdotted]

/-- When no name is that of an array, the classes that were written are those that are listed. -/
theorem referencedClasses_slashed (own : String) {names : List String}
    (h : ∀ name ∈ names, '/' ∉ name.toList ∧ ¬ Name.OfArray name) :
    referencedClasses own (names.map Name.slashed) = names.foldl (addReferenced own) [] := by
  have hback : (names.map Name.slashed).filterMap constantClass? = names := by
    induction names with
    | nil => rfl
    | cons name rest ih =>
      obtain ⟨hname, hrest⟩ := List.forall_mem_cons.mp h
      rw [List.map_cons, List.filterMap_cons_some (constantClass_slashed hname.1 hname.2), ih hrest]
  rw [referencedClasses, hback]

end Descriptor

theorem FieldRecord.Normal.reread {f : FieldRecord} (h : f.Normal) : f.reread = f := by
  rw [FieldRecord.reread, ← h.signature]

theorem MethodRecord.Normal.reread {m : MethodRecord} (h : m.Normal) : m.reread = m := by
  rw [MethodRecord.reread, ← h.signature]

/-- A class that was read and is read back changes only in the list of its referenced classes. -/
theorem ClassRecord.Normal.reread {r : ClassRecord} (h : r.Normal) :
    r.reread.record = { r with
      referencedClasses := Descriptor.referencedClasses r.name (r.writtenClasses.map Name.slashed) } := by
  have hfields : r.fields.map FieldRecord.reread = r.fields :=
    (List.map_congr_left fun f hf => (h.fields f hf).reread).trans (List.map_id _)
  have hmethods : r.methods.map MethodRecord.reread = r.methods :=
    (List.map_congr_left fun m hm => (h.methods m hm).reread).trans (List.map_id _)
  rw [ClassRecord.reread, hfields, hmethods, ← h.signature, ← h.outerClass]

/-- It lists the same classes. -/
theorem ClassRecord.Normal.perm {r : ClassRecord} (h : r.Normal)
    (harray : ∀ name ∈ r.writtenClasses, ¬ Name.OfArray name) :
    (r.writtenClasses.foldl (Descriptor.addReferenced r.name) []).Perm r.referencedClasses := by
  refine (List.perm_ext_iff_of_nodup
    (Descriptor.nodup_foldl_addReferenced List.nodup_nil) h.once).mpr fun name => ?_
  rw [Descriptor.mem_foldl_addReferenced]
  constructor
  · rintro (hnil | ⟨hwritten, hother⟩)
    · cases hnil
    · exact (h.listed name hwritten (harray name hwritten)).resolve_left hother
  · intro hlisted
    have hwritten : name ∈ r.writtenClasses := by simp [writtenClasses, hlisted]
    exact Or.inr ⟨hwritten, fun hown => h.others (hown ▸ hlisted)⟩

/-! ## Asking for a class again -/

namespace PoolBuilder

/-- The pool has the class constant of that slashed name. -/
def Knows (p : PoolBuilder) (text : String) : Prop :=
  ∃ i, (.text text, i) ∈ p.entries ∧ .classRef i ∈ p.constants

theorem Knows.of_subset {p q : PoolBuilder} {text : String} (h : p.Knows text)
    (hsubset : p.entries ⊆ q.entries) : q.Knows text := by
  obtain ⟨i, htext, hclass⟩ := h
  exact ⟨i, hsubset htext, List.map_subset Prod.fst hsubset hclass⟩

theorem nodup_intern {p : PoolBuilder} (h : p.constants.Nodup) (c : Constant) :
    (intern c p).2.constants.Nodup := by
  rcases constants_intern c p with ⟨_, heq⟩ | ⟨hnew, heq⟩
  · rwa [heq]
  · rw [heq]
    exact List.nodup_append.mpr ⟨h, by simp, by grind⟩

theorem slotsOf_le_intern (c : Constant) (p : PoolBuilder) :
    slotsOf p.constants ≤ slotsOf (intern c p).2.constants := by
  rcases constants_intern c p with ⟨_, heq⟩ | ⟨_, heq⟩
  · exact Nat.le_of_eq (by rw [heq])
  · rw [heq, slotsOf_append]
    exact Nat.le_add_right _ _

/-- A constant that is there is not added again. -/
theorem intern_of_mem {p : PoolBuilder} (h : p.constants.Nodup) {c : Constant} {i : UInt16}
    (hmem : (c, i) ∈ p.entries) : intern c p = (i, p) := by
  rcases intern_cases c p with ⟨j, hthere, heq⟩ | ⟨hnew, _⟩
  · have hsame : (c, j) = (c, i) := List.inj_on_of_nodup_map h hthere hmem rfl
    rw [heq, (Prod.mk.inj hsame).2]
  · exact absurd (List.mem_map_of_mem hmem) hnew

theorem snd_classRef (name : String) (p : PoolBuilder) : (classRef name p).2 =
    (intern (.classRef (intern (.text (Name.slashed name)) p).1)
      (intern (.text (Name.slashed name)) p).2).2 := rfl

theorem subset_classRef (name : String) (p : PoolBuilder) : p.entries ⊆ (classRef name p).2.entries :=
  List.Subset.trans (subset_intern _ _) (subset_intern _ _)

theorem nodup_classRef {p : PoolBuilder} (h : p.constants.Nodup) (name : String) :
    (classRef name p).2.constants.Nodup := nodup_intern (nodup_intern h _) _

theorem knows_classRef (name : String) (p : PoolBuilder) :
    (classRef name p).2.Knows (Name.slashed name) :=
  ⟨_, subset_intern _ _ (mem_intern _ p), List.mem_map_of_mem (mem_intern _ _)⟩

theorem classRef_of_knows {p : PoolBuilder} (h : p.constants.Nodup) {name : String}
    (hknows : p.Knows (Name.slashed name)) : (classRef name p).2 = p := by
  obtain ⟨i, htext, hclass⟩ := hknows
  obtain ⟨⟨_, j⟩, hentry, rfl⟩ := List.mem_map.mp hclass
  rw [snd_classRef, intern_of_mem h htext, intern_of_mem h hentry]

/-- A pool that grows keeps clear of repetitions, and it knows the classes that it grew by. -/
theorem Grows.knows {p q : PoolBuilder} {texts : List String} (h : Grows p texts q)
    (hp : p.constants.Nodup) : q.constants.Nodup ∧ ∀ text ∈ texts, q.Knows text := by
  induction h with
  | refl => exact ⟨hp, List.forall_mem_nil _⟩
  | other _ _ _ ih =>
    exact ⟨nodup_intern ih.1 _, fun text hmem => (ih.2 text hmem).of_subset (subset_intern _ _)⟩
  | @classRef q texts text i _ htext ih =>
    refine ⟨nodup_intern ih.1 _, List.forall_mem_append.mpr ⟨?_, ?_⟩⟩
    · exact fun text hmem => (ih.2 text hmem).of_subset (subset_intern _ _)
    · rw [List.forall_mem_singleton]
      exact ⟨i, subset_intern _ _ htext, List.mem_map_of_mem (mem_intern _ q)⟩

/-! ## The order of the referenced classes -/

/-- The pool after some classes were asked for. -/
def withClasses (p : PoolBuilder) (names : List String) : PoolBuilder :=
  names.foldl (fun q name => (classRef name q).2) p

theorem snd_writeEach_writeClass (names : List String) (p : PoolBuilder) :
    (Descriptor.writeEach Descriptor.writeClass names p).2 = p.withClasses names := by
  induction names generalizing p with
  | nil => rfl
  | cons name rest ih => exact ih (classRef name p).2

theorem withClasses_append (p : PoolBuilder) (front back : List String) :
    p.withClasses (front ++ back) = (p.withClasses front).withClasses back := List.foldl_append

theorem nodup_withClasses {p : PoolBuilder} (h : p.constants.Nodup) (names : List String) :
    (p.withClasses names).constants.Nodup := by
  induction names generalizing p with
  | nil => exact h
  | cons name rest ih => exact ih (nodup_classRef h name)

theorem subset_withClasses (p : PoolBuilder) (names : List String) :
    p.entries ⊆ (p.withClasses names).entries := by
  induction names generalizing p with
  | nil => exact List.Subset.refl _
  | cons name rest ih => exact List.Subset.trans (subset_classRef name p) (ih _)

theorem slotsOf_le_withClasses (p : PoolBuilder) (names : List String) :
    slotsOf p.constants ≤ slotsOf (p.withClasses names).constants := by
  induction names generalizing p with
  | nil => exact Nat.le_refl _
  | cons name rest ih =>
    refine Nat.le_trans ?_ (ih (classRef name p).2)
    exact Nat.le_trans (slotsOf_le_intern _ _) (slotsOf_le_intern _ _)

theorem knows_withClasses (p : PoolBuilder) {name : String} {names : List String} (h : name ∈ names) :
    (p.withClasses names).Knows (Name.slashed name) := by
  obtain ⟨front, back, rfl⟩ := List.append_of_mem h
  rw [withClasses_append]
  exact (knows_classRef name (p.withClasses front)).of_subset (subset_withClasses _ back)

theorem withClasses_of_knows {p : PoolBuilder} (h : p.constants.Nodup) {names : List String}
    (hknows : ∀ name ∈ names, p.Knows (Name.slashed name)) : p.withClasses names = p := by
  induction names with
  | nil => rfl
  | cons name rest ih =>
    obtain ⟨hname, hrest⟩ := List.forall_mem_cons.mp hknows
    show (classRef name p).2.withClasses rest = p
    rw [classRef_of_knows h hname, ih hrest]

/-- Behind the class itself, leaving out what was asked for before makes no difference. -/
theorem withClasses_foldl_addReferenced {p : PoolBuilder} (h : p.constants.Nodup) (own : String)
    (found names : List String) :
    p.withClasses (own :: names.foldl (Descriptor.addReferenced own) found) =
      p.withClasses (own :: found ++ names) := by
  -- What was found so far grows, and all of it is in the pool when the next name is asked for.
  induction names generalizing found with
  | nil => rw [List.append_nil, List.foldl_nil]
  | cons name rest ih =>
    rw [List.foldl_cons, ih]
    unfold Descriptor.addReferenced
    split
    · next hthere =>
      have hknows : (p.withClasses (own :: found)).Knows (Name.slashed name) :=
        knows_withClasses p (List.mem_cons.mpr hthere)
      have hskip := classRef_of_knows (nodup_withClasses h _) hknows
      rw [withClasses_append, withClasses_append]
      show _ = (classRef name (p.withClasses (own :: found))).2.withClasses rest
      rw [hskip]
    · rw [← List.cons_append, List.append_assoc]
      rfl

/-- A pool that knows the classes `before` gets the same constants from a list of classes and
from the list that is read back behind them. -/
theorem withClasses_reread {p : PoolBuilder} (h : p.constants.Nodup) {own : String}
    {before : List String} (hown : own ∈ before)
    (hknows : ∀ name ∈ before, p.Knows (Name.slashed name)) (names : List String) :
    p.withClasses ((before ++ names).foldl (Descriptor.addReferenced own) []) =
      p.withClasses names := by
  -- The class itself is not in the list that is read back, but asking for it first costs nothing.
  have hskip : (classRef own p).2 = p := classRef_of_knows h (hknows own hown)
  calc p.withClasses ((before ++ names).foldl (Descriptor.addReferenced own) [])
      = p.withClasses (own :: (before ++ names).foldl (Descriptor.addReferenced own) []) := by
        conv_lhs => rw [← hskip]
        rfl
    _ = p.withClasses (own :: [] ++ (before ++ names)) :=
        withClasses_foldl_addReferenced h own [] _
    _ = (p.withClasses (own :: before)).withClasses names := by
        rw [← withClasses_append]
        rfl
    _ = p.withClasses names := by
        rw [withClasses_of_knows h (List.forall_mem_cons.mpr ⟨hknows own hown, hknows⟩)]

end PoolBuilder

/-! ## Writing again -/

/-- A class without the list of its referenced classes. -/
def ClassRecord.unlisted (r : ClassRecord) : ClassRecord := { r with referencedClasses := [] }

namespace Descriptor

open Decoder (Reads)
open BigEndian (word16)

/-- The referenced classes are only put into the pool, behind all else. -/
theorem writeBody_eq (r : ClassRecord) (p : PoolBuilder) :
    writeBody r p = ((writeBody r.unlisted p).1,
      (writeBody r.unlisted p).2.withClasses r.referencedClasses) := by
  rw [← PoolBuilder.snd_writeEach_writeClass]
  rfl

theorem pool_eq (r : ClassRecord) : r.pool = r.unlisted.pool.withClasses r.referencedClasses :=
  congrArg Prod.snd (writeBody_eq r PoolBuilder.empty)

theorem writtenClasses_eq (r : ClassRecord) :
    r.writtenClasses = r.unlisted.writtenClasses ++ r.referencedClasses := by
  simp [ClassRecord.writtenClasses, ClassRecord.unlisted]

theorem fits_unlisted {r : ClassRecord} (h : r.Fits) : r.unlisted.Fits :=
  { h with
    referencedClasses := List.forall_mem_nil _
    slots := by
      have hslots := h.slots
      rw [pool_eq] at hslots
      exact Nat.le_trans (PoolBuilder.slotsOf_le_withClasses _ _) hslots }

/-- All that is written before the referenced classes is in the pool by then. -/
theorem knows_unlisted {r : ClassRecord} (h : r.Fits) : r.unlisted.pool.constants.Nodup ∧
    ∀ name ∈ r.unlisted.writtenClasses, r.unlisted.pool.Knows (Name.slashed name) := by
  have hgrows := (PoolBuilder.yields_writeBody ⟨true⟩ (fits_unlisted h) .empty).1
  obtain ⟨hnodup, hknows⟩ := hgrows.knows List.nodup_nil
  exact ⟨hnodup, fun name hname => hknows _ (List.mem_map_of_mem hname)⟩

theorem encode_congr {r : ClassRecord} {names : List String}
    (h : r.unlisted.pool.withClasses names = r.unlisted.pool.withClasses r.referencedClasses) :
    encode { r with referencedClasses := names } = encode r := by
  have hbody : writeBody { r with referencedClasses := names } .empty = writeBody r .empty := by
    rw [writeBody_eq, writeBody_eq r]
    exact congrArg (Prod.mk _) h
  unfold encode
  simp only [StateT.run, hbody]

variable (options options' : DecodeOptions)

/-- The descriptor of a class that fits is read as that class, and no further. -/
theorem reads_encode {r : ClassRecord} (h : r.Fits) : Reads (decodeClass options) (encode r) r.reread := by
  obtain ⟨hgrows, hright⟩ := PoolBuilder.yields_writeBody options h .empty
  have hsound : r.pool.Sound := hgrows.sound PoolBuilder.sound_empty
  have hheld := hsound.held h.slots
  obtain ⟨names, hnames, hlisted⟩ := hgrows.classTexts hheld rfl
  have hbody := hright _ hheld names ((ConstantPool.classNames_ofConstants _).trans hnames)
    (hlisted r.name)
  have hall : Reads (decodeClass options) _ r.reread :=
    (reads_header h.version).bind ((hsound.reads h.slots).bind hbody)
  simp only [← List.append_assoc] at hall
  exact hall

/-- Writing a class that was read reaches the last form at once. Its descriptor is read as the
same class, whose referenced classes may stand in another order, with the same issues; and that
class has the same descriptor. -/
theorem a_class_that_was_read_is_written_the_same_again {bytes : Bytes} {d : DecodedClass}
    (h : decode options bytes = .ok d) (hlimits : d.record.WithinLimits)
    (harray : ∀ name ∈ d.record.writtenClasses, ¬ Name.OfArray name) :
    ∃ again, decode options' (encode d.record) = .ok again ∧
      again.record = { d.record with referencedClasses := again.record.referencedClasses } ∧
      again.record.referencedClasses.Perm d.record.referencedClasses ∧
      again.record.referencedClasses.Nodup ∧ again.issues = d.issues ∧
      encode again.record = encode d.record := by
  obtain ⟨hnormal, hissues⟩ := normal_of_decode options h
  have hfits := hnormal.fits hlimits
  -- Only the list of the referenced classes is made anew, from all classes that were written.
  have hsame : d.record.reread.record = { d.record with
      referencedClasses := d.record.writtenClasses.foldl (addReferenced d.record.name) [] } := by
    rw [hnormal.reread, referencedClasses_slashed _ fun name hname =>
      ⟨hnormal.dotted name hname, harray name hname⟩]
  refine ⟨d.record.reread, (reads_encode options' hfits).run, ?_, ?_, ?_, hissues.symm, ?_⟩
  · rw [hsame]
  · rw [hsame]
    exact hnormal.perm harray
  · rw [hsame]
    exact nodup_foldl_addReferenced List.nodup_nil
  · obtain ⟨hnodup, hknows⟩ := knows_unlisted hfits
    have hown : d.record.name ∈ d.record.unlisted.writtenClasses := List.mem_cons_self
    rw [hsame, encode_congr]
    rw [writtenClasses_eq]
    exact PoolBuilder.withClasses_reread hnodup hown hknows _

/-- The constants of a lodge: itself, a tool, a house and an annotation. -/
def lodgeConstants : List Constant :=
  [.text "Lodge", .classRef 1, .text "Tool", .classRef 3, .text "House", .classRef 5,
    .text "RuntimeInvisibleAnnotations", .text "LMark;"]

/-- A lodge that is a house. Its pool names the tool first, and its annotation is invisible. -/
def lodgeBytes : Bytes :=
  BigEndian.word32 magic ++ [0, 52, 9].flatMap word16 ++ lodgeConstants.flatMap Constant.encode ++
    [0x0021, 2, 6, 0, 0, 0, 1, 7, 0, 6, 1, 8, 0].flatMap word16

theorem a_lodge_is_written_the_same_again :
    ∃ d, decode ⟨true⟩ lodgeBytes = .ok d ∧
      (d.record.WithinLimits ∧ (∀ name ∈ d.record.writtenClasses, ¬ Name.OfArray name) ∧
        d.record.referencedClasses = ["Tool", "House"]) ∧
      ∃ again, decode ⟨false⟩ (encode d.record) = .ok again ∧
        again.record = { d.record with referencedClasses := again.record.referencedClasses } ∧
        again.record.referencedClasses.Perm d.record.referencedClasses ∧
        again.record.referencedClasses.Nodup ∧ again.issues = d.issues ∧
        encode again.record = encode d.record := by
  have haccepted : ∃ d ∈ (decode ⟨true⟩ lodgeBytes).toOption,
      d.record.WithinLimits ∧ (∀ name ∈ d.record.writtenClasses, ¬ Name.OfArray name) ∧
        d.record.referencedClasses = ["Tool", "House"] := by decide +kernel
  obtain ⟨d, hd, hfacts⟩ := haccepted
  have h := Decoder.ok_of_toOption hd
  exact ⟨d, h, hfacts, a_class_that_was_read_is_written_the_same_again ⟨true⟩ ⟨false⟩ h hfacts.1
    hfacts.2.1⟩

end Descriptor

end ClassAtlas
