-- What every decoded class is like, whatever bytes it was read from: its names are dotted, its
-- values do not nest too deep, its signatures are parsed from their texts, and the classes that
-- its descriptor names are listed once each.
import Mathlib.Data.List.Basic
import ClassAtlas.Proofs.Descriptor.Answers
import ClassAtlas.Proofs.Descriptor.RoundTrip

namespace ClassAtlas

/-! ## Names -/

namespace Name

theorem slash_notMem_dotted (name : String) : '/' ∉ (dotted name).toList := by
  unfold dotted Text.replaceChar
  rw [String.toList_ofList, List.mem_map]
  rintro ⟨c, _, hc⟩
  split at hc
  · exact absurd hc (by decide)
  · contradiction

theorem slash_notMem_ofDescriptor (text : String) : '/' ∉ (ofDescriptor text).toList := by
  unfold ofDescriptor
  split <;> exact slash_notMem_dotted _

/-- The name of an array type, such as `[I`. -/
def OfArray (name : String) : Prop := name.toList.head? = some '['

instance (name : String) : Decidable (OfArray name) := inferInstanceAs (Decidable (_ = _))

theorem ofArray_replaceChar {old new : Char} (hold : old ≠ '[') (hnew : new ≠ '[') (name : String) :
    OfArray (Text.replaceChar old new name) ↔ OfArray name := by
  unfold OfArray Text.replaceChar
  rw [String.toList_ofList, List.head?_map]
  cases name.toList.head? with
  | none => simp
  | some c =>
    by_cases hc : c = old
    · simp [hc, hold, hnew]
    · simp [hc]

theorem ofArray_dotted (name : String) : OfArray (dotted name) ↔ OfArray name :=
  ofArray_replaceChar (by decide) (by decide) name

theorem ofArray_slashed (name : String) : OfArray (slashed name) ↔ OfArray name :=
  ofArray_replaceChar (by decide) (by decide) name

end Name

namespace Descriptor

theorem slash_notMem_constantClass {text name : String} (h : constantClass? text = some name) :
    '/' ∉ name.toList := by
  unfold constantClass? Name.ofElementDescriptor? at h
  split at h
  · simp only [Option.ite_none_right_eq_some, Option.some.injEq] at h
    obtain ⟨_, rfl⟩ := h
    exact Name.slash_notMem_ofDescriptor _
  · cases h
    exact Name.slash_notMem_dotted _

end Descriptor

/-! ## Values -/

mutual

/-- The types that a value names have dotted names. -/
def ElementValue.Dotted : ElementValue → Prop
  | .enumConstant typeName _ => '/' ∉ typeName.toList
  | .nested typeName elements => '/' ∉ typeName.toList ∧ ElementsDotted elements
  | .array values => ValuesDotted values
  | _ => True

def ElementsDotted : List (String × ElementValue) → Prop
  | [] => True
  | (_, value) :: rest => value.Dotted ∧ ElementsDotted rest

def ValuesDotted : List ElementValue → Prop
  | [] => True
  | value :: rest => value.Dotted ∧ ValuesDotted rest

end

theorem elementsDotted_of_forall {elements : List (String × ElementValue)}
    (h : ∀ e ∈ elements, e.2.Dotted) : ElementsDotted elements := by
  induction elements with
  | nil => trivial
  | cons e rest ih => exact ⟨h e (by simp), ih fun d hd => h d (by simp [hd])⟩

theorem valuesDotted_of_forall {values : List ElementValue} (h : ∀ v ∈ values, v.Dotted) :
    ValuesDotted values := by
  induction values with
  | nil => trivial
  | cons v rest ih => exact ⟨h v (by simp), ih fun w hw => h w (by simp [hw])⟩

theorem elementsNesting_le {elements : List (String × ElementValue)} {n : Nat}
    (h : ∀ e ∈ elements, e.2.nesting + 2 ≤ n) : elementsNesting elements ≤ n := by
  induction elements with
  | nil => exact Nat.zero_le n
  | cons e rest ih => exact Nat.max_le.mpr ⟨h e (by simp), ih fun d hd => h d (by simp [hd])⟩

theorem valuesNesting_le {values : List ElementValue} {n : Nat}
    (h : ∀ v ∈ values, v.nesting + 1 ≤ n) : valuesNesting values ≤ n := by
  induction values with
  | nil => exact Nat.zero_le n
  | cons v rest ih => exact Nat.max_le.mpr ⟨h v (by simp), ih fun w hw => h w (by simp [hw])⟩

/-- A value that a reader with that many levels may have given. -/
def ElementValue.Normal (levels : Nat) (v : ElementValue) : Prop := v.Dotted ∧ v.nesting < levels

/-- An annotation that may have been read. -/
structure AnnotationRecord.NormalBelow (levels : Nat) (a : AnnotationRecord) : Prop where
  typeName : '/' ∉ a.typeName.toList
  elements : ∀ e ∈ a.elements, e.2.Normal levels

namespace AnnotationRecord

open Decoder

def Normal (a : AnnotationRecord) : Prop := a.NormalBelow maxNesting

variable {pool : ConstantPool} {levels : Nat}

theorem gives_decodeWith {value : Decoder ElementValue} (h : Gives value (ElementValue.Normal levels)) :
    Gives (decodeWith pool value) (NormalBelow levels) := by
  refine gives_bind fun typeName => ?_
  have helement : Gives (do
      let name ← lookUp pool.text
      let v ← value
      return (name, v)) fun e => e.2.Normal levels := gives_bind fun name => h.bind fun _ hv => gives_pure hv
  exact Gives.bind_pure (helement.counted.mono fun _ helements =>
    ⟨Name.slash_notMem_ofDescriptor typeName, helements⟩)

/-- What lies inside a value was read with fewer levels, one less in an array and two less in a
nested annotation. -/
theorem gives_decodeTagged {item inner : Decoder ElementValue}
    (hitem : Gives item (ElementValue.Normal levels))
    (hinner : Gives inner (ElementValue.Normal (levels - 1))) (tag : UInt8) :
    Gives (decodeTagged pool item inner tag) (ElementValue.Normal (levels + 1)) := by
  unfold decodeTagged
  split
  -- The tags are told by their places: an enum constant, a nested annotation, an array and an
  -- unknown tag. All other values hold no names and nothing inside.
  case h_10 =>
    refine gives_bind fun typeName => gives_bind fun constant => gives_pure ?_
    exact ⟨Name.slash_notMem_ofDescriptor typeName, Nat.zero_lt_succ _⟩
  case h_12 =>
    refine Gives.bind_pure ((gives_decodeWith hinner).mono fun a ha => ?_)
    refine ⟨⟨ha.typeName, elementsDotted_of_forall fun e he => (ha.elements e he).1⟩, ?_⟩
    refine Nat.lt_succ_of_le (elementsNesting_le fun e he => ?_)
    have hlevels := (ha.elements e he).2
    omega
  case h_13 =>
    refine Gives.bind_pure (hitem.counted.mono fun values hvalues => ?_)
    refine ⟨valuesDotted_of_forall fun v hv => (hvalues v hv).1, ?_⟩
    exact Nat.lt_succ_of_le (valuesNesting_le fun v hv => (hvalues v hv).2)
  case h_14 => exact gives_throw _
  all_goals exact gives_bind fun _ => gives_pure ⟨trivial, Nat.zero_lt_succ _⟩

theorem gives_decodeValue (levels : Nat) :
    Gives (decodeValue pool levels) (ElementValue.Normal levels) := by
  induction levels using Nat.strongRecOn with
  | ind levels ih =>
    cases levels with
    | zero => exact gives_throw _
    | succ levels =>
      rw [PoolBuilder.decodeValue_succ]
      refine gives_bind fun tag => gives_decodeTagged (ih levels (by omega)) ?_ tag
      exact ih (levels - 1) (by omega)

theorem gives_decodeList :
    Gives (decodeList pool) fun annotations => ∀ a ∈ annotations, a.Normal :=
  (gives_decodeWith (gives_decodeValue maxNesting)).counted

theorem gives_decodeParameters :
    Gives (decodeParameters pool) fun parameters =>
      ∀ annotations ∈ parameters, ∀ a ∈ annotations, a.Normal :=
  gives_bind fun count => gives_decodeList.times count.toNat

end AnnotationRecord

/-! ## Members -/

/-- A field that may have been read. -/
structure FieldRecord.Normal (f : FieldRecord) : Prop where
  signature : f.parsedSignature = readText ValueType.parse f.signature
  annotations : ∀ a ∈ f.annotations, a.Normal

/-- A method that may have been read, apart from the names of its exceptions. -/
structure MethodRecord.Normal (m : MethodRecord) : Prop where
  signature : m.parsedSignature = readText MethodSignature.parse m.signature
  annotations : ∀ a ∈ m.annotations, a.Normal
  parameters : ∀ annotations ∈ m.parameterAnnotations, ∀ a ∈ annotations, a.Normal
  default : ∀ v ∈ m.annotationDefault, v.Normal (AnnotationRecord.maxNesting + 1)

/-- A class constant of the pool has that name in its dotted form. -/
def ConstantPool.Names (pool : ConstantPool) (name : String) : Prop :=
  ∃ index text, pool.className index = .ok text ∧ Name.dotted text = name

namespace Descriptor

open Decoder
open AnnotationRecord (gives_decodeList gives_decodeParameters gives_decodeValue)

variable (options : DecodeOptions) {pool : ConstantPool}

theorem gives_className : Gives (className pool) pool.Names :=
  Gives.map ((gives_lookUp _).mono fun text ⟨index, htext⟩ => ⟨index, text, htext, rfl⟩)

theorem gives_optionalClassName : Gives (optionalClassName pool) fun name => ∀ n ∈ name, pool.Names n := by
  refine Gives.bind_pure ((gives_lookUp _).mono fun found ⟨index, hfound⟩ => ?_)
  unfold ConstantPool.optionally at hfound
  split at hfound
  · cases hfound
    simp
  · cases hclass : pool.className index with
    | error fault =>
      rw [hclass] at hfound
      cases hfound
    | ok text =>
      rw [hclass] at hfound
      cases hfound
      rintro n ⟨⟩
      exact ⟨index, text, hclass, rfl⟩

/-! ### Fields -/

/-- A field of that name while its attributes are read. -/
structure FieldSoFar (name : String) (f : FieldRecord) : Prop where
  name : f.name = name
  annotations : ∀ a ∈ f.annotations, a.Normal

theorem gives_fieldAttribute (kind : String) {name : String} {f : FieldRecord}
    (h : FieldSoFar name f) :
    Gives (fieldAttribute options pool kind f) (FieldSoFar name) := by
  have hlist : Gives (do
      return { f with annotations := f.annotations ++ (← AnnotationRecord.decodeList pool) })
        (FieldSoFar name) :=
    Gives.bind_pure (gives_decodeList.mono fun _ hmore =>
      { h with annotations := List.forall_mem_append.mpr ⟨h.annotations, hmore⟩ })
  unfold fieldAttribute
  split
  · exact gives_bind fun _ => gives_pure { h with }
  · exact gives_bind fun _ => gives_pure { h with }
  · exact hlist
  · split
    · exact hlist
    · exact gives_pure h
  · exact gives_pure h

theorem gives_field : Gives (field options pool) fun x => x.1.Normal ∧ x.2 = x.1.issues := by
  refine gives_bind fun access => gives_bind fun name => gives_bind fun descriptor => ?_
  have hbare : FieldSoFar name (bareField access name descriptor) :=
    ⟨rfl, List.forall_mem_nil _⟩
  refine (gives_attributeTable (fun kind _ => gives_fieldAttribute options kind)
    hbare).bind fun f hf => ?_
  simp only [parsed_eq]
  refine gives_pure ⟨⟨rfl, hf.annotations⟩, ?_⟩
  rw [FieldRecord.issues, hf.name]

/-! ### Methods -/

theorem forall_mergeParameters {P : AnnotationRecord → Prop} {known more : List (List AnnotationRecord)}
    (hknown : ∀ annotations ∈ known, ∀ a ∈ annotations, P a)
    (hmore : ∀ annotations ∈ more, ∀ a ∈ annotations, P a) :
    ∀ annotations ∈ mergeParameters known more, ∀ a ∈ annotations, P a := by
  induction known generalizing more with
  | nil => cases more <;> exact hmore
  | cons a known ih =>
    cases more with
    | nil => exact hknown
    | cons b more =>
      obtain ⟨ha, hknown⟩ := List.forall_mem_cons.mp hknown
      obtain ⟨hb, hmore⟩ := List.forall_mem_cons.mp hmore
      exact List.forall_mem_cons.mpr ⟨List.forall_mem_append.mpr ⟨ha, hb⟩, ih hknown hmore⟩

/-- A method of that name and type while its attributes are read. -/
structure MethodSoFar (pool : ConstantPool) (name descriptor : String) (m : MethodRecord) : Prop where
  name : m.name = name
  descriptor : m.descriptor = descriptor
  annotations : ∀ a ∈ m.annotations, a.Normal
  parameters : ∀ annotations ∈ m.parameterAnnotations, ∀ a ∈ annotations, a.Normal
  exceptions : ∀ n ∈ m.exceptions, pool.Names n
  default : ∀ v ∈ m.annotationDefault, v.Normal (AnnotationRecord.maxNesting + 1)

theorem gives_methodAttribute (kind : String) {name descriptor : String} {m : MethodRecord}
    (h : MethodSoFar pool name descriptor m) :
    Gives (methodAttribute options pool kind m) (MethodSoFar pool name descriptor) := by
  have hlist : Gives (do
      return { m with annotations := m.annotations ++ (← AnnotationRecord.decodeList pool) })
        (MethodSoFar pool name descriptor) :=
    Gives.bind_pure (gives_decodeList.mono fun _ hmore =>
      { h with annotations := List.forall_mem_append.mpr ⟨h.annotations, hmore⟩ })
  have hparameters : Gives (do
      let more ← AnnotationRecord.decodeParameters pool
      return { m with parameterAnnotations := mergeParameters m.parameterAnnotations more })
        (MethodSoFar pool name descriptor) :=
    Gives.bind_pure (gives_decodeParameters.mono fun _ hmore =>
      { h with parameters := forall_mergeParameters h.parameters hmore })
  unfold methodAttribute
  split
  · exact gives_bind fun _ => gives_pure { h with }
  · exact Gives.bind_pure (gives_className.counted.mono fun _ hmore =>
      { h with exceptions := List.forall_mem_append.mpr ⟨h.exceptions, hmore⟩ })
  · exact hlist
  · split
    · exact hlist
    · exact gives_pure h
  · exact hparameters
  · split
    · exact hparameters
    · exact gives_pure h
  · exact Gives.bind_pure ((gives_decodeValue _).mono fun v hv =>
      { h with default := fun w hw => Option.some.inj hw ▸ hv })
  · exact gives_pure h

theorem gives_method : Gives (method options pool) fun x =>
    x.1.Normal ∧ x.2 = x.1.issues ∧ ∀ n ∈ x.1.exceptions, pool.Names n := by
  refine gives_bind fun access => gives_bind fun name => gives_bind fun descriptor => ?_
  have hbare : MethodSoFar pool name descriptor (bareMethod access name descriptor) :=
    ⟨rfl, rfl, List.forall_mem_nil _, List.forall_mem_nil _, List.forall_mem_nil _, by simp [bareMethod]⟩
  refine (gives_attributeTable (fun kind _ => gives_methodAttribute options kind)
    hbare).bind fun m hm => ?_
  simp only [parsed_eq]
  refine gives_pure ⟨⟨rfl, hm.annotations, hm.parameters, hm.default⟩, ?_, hm.exceptions⟩
  rw [MethodRecord.issues, hm.name, hm.descriptor]

end Descriptor

/-! ## Classes -/

/-- The issues of all signature texts of a class. -/
def ClassRecord.issues (r : ClassRecord) : List SignatureIssue :=
  r.fields.flatMap FieldRecord.issues ++ r.methods.flatMap MethodRecord.issues ++
    textIssues ClassSignature.parse "class signature" r.signature

theorem ClassRecord.forall_writtenClasses {r : ClassRecord} {P : String → Prop} :
    (∀ n ∈ r.writtenClasses, P n) ↔ P r.name ∧ (∀ n ∈ r.superclass, P n) ∧ (∀ n ∈ r.interfaces, P n) ∧
      (∀ m ∈ r.methods, ∀ n ∈ m.exceptions, P n) ∧ (∀ e ∈ r.innerClasses, ∀ n ∈ e.classes, P n) ∧
        ∀ n ∈ r.referencedClasses, P n := by
  simp only [writtenClasses, List.forall_mem_cons, List.forall_mem_append, List.forall_mem_flatMap,
    Option.mem_toList, Option.mem_def]

/-- All class names are dotted, and the list of referenced classes has each class once that is
named anywhere, apart from the class itself and from names of arrays. -/
structure ClassRecord.Listed (r : ClassRecord) : Prop where
  dotted : ∀ name ∈ r.writtenClasses, '/' ∉ name.toList
  listed : ∀ name ∈ r.writtenClasses, ¬ Name.OfArray name → name = r.name ∨ name ∈ r.referencedClasses
  once : r.referencedClasses.Nodup
  others : r.name ∉ r.referencedClasses

/-- A class that may have been read. -/
structure ClassRecord.Normal (r : ClassRecord) : Prop extends r.Listed where
  version : Descriptor.oldestMajor ≤ r.majorVersion
  signature : r.parsedSignature = readText ClassSignature.parse r.signature
  outerClass : r.outerClass = Descriptor.outerClass r.name r.innerClasses
  fields : ∀ f ∈ r.fields, f.Normal
  methods : ∀ m ∈ r.methods, m.Normal
  annotations : ∀ a ∈ r.annotations, a.Normal

namespace Descriptor

open Decoder
open AnnotationRecord (gives_decodeList)

variable (options : DecodeOptions) {pool : ConstantPool}

theorem gives_innerClass : Gives (innerClass pool) fun e => ∀ n ∈ e.classes, pool.Names n := by
  refine gives_className.bind fun inner hinner => ?_
  refine gives_optionalClassName.bind fun outer houter => ?_
  refine gives_bind fun simpleName => gives_bind fun access => gives_pure ?_
  exact List.forall_mem_cons.mpr ⟨hinner, fun n hn => houter n (Option.mem_toList.mp hn)⟩

/-- A class while its attributes are read: they change three fields of what was read before. -/
inductive ClassSoFar (pool : ConstantPool) (bare : ClassRecord) : ClassRecord → Prop
  | mk {annotations : List AnnotationRecord} {signature : Option String} {innerClasses : List InnerClass} :
      (∀ a ∈ annotations, a.Normal) → (∀ e ∈ innerClasses, ∀ n ∈ e.classes, pool.Names n) →
      ClassSoFar pool bare { bare with annotations, signature, innerClasses }

theorem gives_classAttribute (kind : String) {bare r : ClassRecord} (h : ClassSoFar pool bare r) :
    Gives (classAttribute options pool kind r) (ClassSoFar pool bare) := by
  have hlist : Gives (do
      return { r with annotations := r.annotations ++ (← AnnotationRecord.decodeList pool) })
        (ClassSoFar pool bare) := by
    obtain ⟨hannotations, hinner⟩ := h
    exact Gives.bind_pure (gives_decodeList.mono fun _ hmore =>
      .mk (List.forall_mem_append.mpr ⟨hannotations, hmore⟩) hinner)
  unfold classAttribute
  split
  · obtain ⟨hannotations, hinner⟩ := h
    exact gives_bind fun _ => gives_pure (.mk hannotations hinner)
  · exact hlist
  · split
    · exact hlist
    · exact gives_pure h
  · obtain ⟨hannotations, -⟩ := h
    exact Gives.bind_pure (gives_innerClass.counted.mono fun _ hentries => .mk hannotations hentries)
  · exact gives_pure h

theorem gives_classAttributes {bare : ClassRecord} (hannotations : bare.annotations = [])
    (hinner : bare.innerClasses = []) :
    Gives (attributeTable pool (classAttribute options pool) bare) (ClassSoFar pool bare) := by
  have hbare : ClassSoFar pool bare { bare with
      annotations := bare.annotations, signature := bare.signature, innerClasses := bare.innerClasses } :=
    .mk (by simp [hannotations]) (by simp [hinner])
  exact gives_attributeTable (fun kind _ => gives_classAttribute options kind) hbare

/-- The text of each class constant is among the names of all class constants. -/
theorem mem_classNames {index : UInt16} {text : String} {names : List String}
    (hclass : pool.className index = .ok text) (hnames : pool.classNames = .ok names) :
    text ∈ names := by
  unfold ConstantPool.className ConstantPool.pick ConstantPool.get at hclass
  by_cases hzero : index = 0
  · rw [if_pos hzero] at hclass
    cases hclass
  rw [if_neg hzero] at hclass
  cases hentry : pool.entries[index.toNat]? with
  | none =>
    rw [hentry] at hclass
    cases hclass
  | some c =>
    rw [hentry] at hclass
    cases c <;> try cases hclass
    next i =>
      have hclasses : classTexts pool pool.entries.toList = .ok names := hnames
      refine mem_of_classTexts hclasses ?_ hclass
      rw [← Array.getElem?_toList] at hentry
      exact List.mem_of_getElem? hentry

/-- A class names only class constants of its pool, and those are listed. -/
theorem listed_of_names {r : ClassRecord} {names : List String} (hnames : pool.classNames = .ok names)
    (hreferenced : r.referencedClasses = referencedClasses r.name names)
    (h : ∀ name ∈ r.writtenClasses, pool.Names name ∨ name ∈ r.referencedClasses) : r.Listed := by
  constructor
  case dotted =>
    intro name hname
    rcases h name hname with ⟨_, text, _, rfl⟩ | hlisted
    · exact Name.slash_notMem_dotted text
    · rw [hreferenced] at hlisted
      obtain ⟨_, text, _, hclass⟩ := mem_referencedClasses.mp hlisted
      exact slash_notMem_constantClass hclass
  case listed =>
    intro name hname harray
    rcases h name hname with ⟨index, text, hclass, rfl⟩ | hlisted
    · rw [hreferenced, mem_referencedClasses]
      refine or_iff_not_imp_left.mpr fun hother => ⟨hother, text, mem_classNames hclass hnames, ?_⟩
      exact if_neg fun hhead => harray ((Name.ofArray_dotted text).mpr hhead)
    · exact Or.inr hlisted
  case once =>
    rw [hreferenced]
    exact nodup_referencedClasses r.name names
  case others =>
    rw [hreferenced]
    exact fun hown => (mem_referencedClasses.mp hown).1 rfl

theorem gives_header : Gives header fun version => oldestMajor ≤ version.2 :=
  gives_bind fun _ => Gives.refuse fun _ => gives_bind fun _ => gives_bind fun _ =>
    Gives.refuse fun hmajor => gives_pure (UInt16.not_lt.mp hmajor)

/-- What members were read with are their own issues. -/
theorem flatMap_issues {α : Type} {members : List (α × List SignatureIssue)}
    {issues : α → List SignatureIssue} (h : ∀ x ∈ members, x.2 = issues x.1) :
    members.flatMap (·.2) = (members.map (·.1)).flatMap issues := by
  rw [List.flatMap_map]
  exact List.flatMap_congr h

theorem gives_decodeBody {minor major : UInt16} (h : oldestMajor ≤ major) :
    Gives (decodeBody options minor major pool) fun d =>
      d.record.Normal ∧ d.issues = d.record.issues := by
  refine gives_bind fun access => gives_className.bind fun name hname => ?_
  refine gives_optionalClassName.bind fun superclass hsuper => ?_
  refine gives_className.counted.bind fun interfaces hinterfaces => ?_
  refine (gives_field options).counted.bind fun fields hfields => ?_
  refine (gives_method options).counted.bind fun methods hmethods => ?_
  refine (gives_classAttributes options rfl rfl).bind fun r hr => ?_
  simp only [parsed_eq]
  refine (gives_ofExcept _).bind fun names hnames => gives_pure ?_
  obtain ⟨hannotations, hinner⟩ := hr
  constructor
  · exact {
      toListed := listed_of_names hnames rfl (ClassRecord.forall_writtenClasses.mpr
        ⟨Or.inl hname, fun n hn => Or.inl (hsuper n hn), fun n hn => Or.inl (hinterfaces n hn),
          List.forall_mem_map.mpr fun x hx n hn => Or.inl ((hmethods x hx).2.2 n hn),
          fun e he n hn => Or.inl (hinner e he n hn), fun n hn => Or.inr hn⟩)
      version := h
      signature := rfl
      outerClass := rfl
      fields := List.forall_mem_map.mpr fun x hx => (hfields x hx).1
      methods := List.forall_mem_map.mpr fun x hx => (hmethods x hx).1
      annotations := hannotations }
  · rw [flatMap_issues fun x hx => (hfields x hx).2, flatMap_issues fun x hx => (hmethods x hx).2.1]
    rfl

/-- What is read of any bytes is a normal class, with the issues of its own signatures. -/
theorem normal_of_decode {bytes : Bytes} {d : DecodedClass} (h : decode options bytes = .ok d) :
    d.record.Normal ∧ d.issues = d.record.issues := by
  have hclass : Gives (decodeClass options) fun d => d.record.Normal ∧ d.issues = d.record.issues :=
    gives_header.bind fun _ hversion => gives_bind fun _ => gives_decodeBody options hversion
  exact hclass.run h

end Descriptor

end ClassAtlas
