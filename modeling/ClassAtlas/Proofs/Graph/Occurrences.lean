-- Where a class stands in a type, in a value or in a record. The lists of classes that the edges
-- are made of hold exactly the classes that stand somewhere, at any depth.
import ClassAtlas.Proofs.Graph.Mentions

namespace ClassAtlas

/-! ## In types -/

/-- A type argument stands at some level of a class type. -/
inductive ClassType.HasArgument (a : TypeArgument) : ClassType → Prop
  | topLevel {package : List String} {name : String} {arguments : List TypeArgument} :
      a ∈ arguments → HasArgument a (.topLevel package name arguments)
  | inner {enclosing : ClassType} {name : String} {arguments : List TypeArgument} :
      a ∈ arguments → HasArgument a (.inner enclosing name arguments)
  | enclosing {enclosing : ClassType} {name : String} {arguments : List TypeArgument} :
      HasArgument a enclosing → HasArgument a (.inner enclosing name arguments)

/-- A class stands in a reference type: it is the class of it, or stands in a type argument,
with or without a wildcard, or in the elements of an array. -/
inductive ReferenceType.Mentions (x : String) : ReferenceType → Prop
  | itself {c : ClassType} : c.binaryName = x → Mentions x (.classType c)
  | argument {c : ClassType} {bound : ArgumentBound} {r : ReferenceType} :
      c.HasArgument (.of bound r) → Mentions x r → Mentions x (.classType c)
  | element {r : ReferenceType} : Mentions x r → Mentions x (.array (.reference r))

def ValueType.Mentions (t : ValueType) (x : String) : Prop := ∃ r, t = .reference r ∧ r.Mentions x

def ClassType.Mentions (c : ClassType) (x : String) : Prop := (ReferenceType.classType c).Mentions x

/-- A class stands in a bound of a type parameter. -/
def TypeParameter.Mentions (p : TypeParameter) (x : String) : Prop :=
  ∃ r, (p.classBound = some r ∨ r ∈ p.interfaceBounds) ∧ r.Mentions x

/-- A class stands in a bound of a type parameter or in a supertype. -/
inductive ClassSignature.Mentions (s : ClassSignature) (x : String) : Prop
  | bound {p : TypeParameter} : p ∈ s.typeParameters → p.Mentions x → Mentions s x
  | superclass : s.superclass.Mentions x → Mentions s x
  | interface {c : ClassType} : c ∈ s.interfaces → c.Mentions x → Mentions s x

/-- A class stands in a parameter, in the result, in what is thrown or in a bound of a type
parameter. -/
inductive MethodSignature.Mentions (s : MethodSignature) (x : String) : Prop
  | parameter {t : ValueType} : t ∈ s.parameters → t.Mentions x → Mentions s x
  | result {t : ValueType} : s.result = some t → t.Mentions x → Mentions s x
  | thrown {t : ThrownType} : t ∈ s.throws → t.toReference.Mentions x → Mentions s x
  | bound {p : TypeParameter} : p ∈ s.typeParameters → p.Mentions x → Mentions s x

theorem argumentListClasses_eq (arguments : List TypeArgument) :
    argumentListClasses arguments = arguments.flatMap TypeArgument.classes := by
  induction arguments with
  | nil => rfl
  | cons a rest ih => rw [argumentListClasses, ih, List.flatMap_cons]

theorem ClassType.HasArgument.mem_argumentClasses {c : ClassType} {a : TypeArgument} {x : String}
    (h : c.HasArgument a) (hx : x ∈ a.classes) : x ∈ c.argumentClasses := by
  induction h with
  | topLevel ha =>
    rw [argumentClasses, argumentListClasses_eq]
    exact List.mem_flatMap.mpr ⟨a, ha, hx⟩
  | inner ha =>
    rw [argumentClasses, argumentListClasses_eq]
    exact List.mem_append_right _ (List.mem_flatMap.mpr ⟨a, ha, hx⟩)
  | enclosing _ ih =>
    rw [argumentClasses]
    exact List.mem_append_left _ ih

theorem ReferenceType.Mentions.mem_classes {r : ReferenceType} {x : String} (h : r.Mentions x) :
    x ∈ r.classes := by
  induction h with
  | itself hname =>
    rw [classes, hname]
    exact List.mem_cons_self
  | argument ha _ ih =>
    rw [classes]
    exact List.mem_cons_of_mem _ (ha.mem_argumentClasses ih)
  | element _ ih => rwa [classes, ValueType.classes]

-- one case for each constructor, and type arguments are taken from the front
mutual

theorem ValueType.mentions_of_mem {x : String} :
    ∀ {t : ValueType}, x ∈ t.classes → t.Mentions x
  | .base _, h => by cases h
  | .reference r, h => ⟨r, rfl, ReferenceType.mentions_of_mem h⟩

theorem ReferenceType.mentions_of_mem {x : String} :
    ∀ {r : ReferenceType}, x ∈ r.classes → r.Mentions x
  | .classType c, h => by
    rw [ReferenceType.classes] at h
    rcases List.mem_cons.mp h with hname | h
    · exact .itself hname.symm
    · obtain ⟨_, _, ha, hr⟩ := ClassType.exists_argument_of_mem h
      exact .argument ha hr
  | .typeVariable _, h => by cases h
  | .array element, h => by
    rw [ReferenceType.classes] at h
    obtain ⟨r, rfl, hr⟩ := ValueType.mentions_of_mem h
    exact .element hr

theorem ClassType.exists_argument_of_mem {x : String} :
    ∀ {c : ClassType}, x ∈ c.argumentClasses →
      ∃ bound r, c.HasArgument (.of bound r) ∧ ReferenceType.Mentions x r
  | .topLevel _ _ arguments, h => by
    rw [ClassType.argumentClasses] at h
    obtain ⟨bound, r, ha, hr⟩ := exists_of_mem_argumentListClasses h
    exact ⟨bound, r, .topLevel ha, hr⟩
  | .inner enclosing _ arguments, h => by
    rw [ClassType.argumentClasses] at h
    rcases List.mem_append.mp h with h | h
    · obtain ⟨bound, r, ha, hr⟩ := ClassType.exists_argument_of_mem h
      exact ⟨bound, r, .enclosing ha, hr⟩
    · obtain ⟨bound, r, ha, hr⟩ := exists_of_mem_argumentListClasses h
      exact ⟨bound, r, .inner ha, hr⟩

theorem TypeArgument.exists_of_mem {x : String} :
    ∀ {a : TypeArgument}, x ∈ a.classes →
      ∃ bound r, a = .of bound r ∧ ReferenceType.Mentions x r
  | .any, h => by cases h
  | .of bound r, h => ⟨bound, r, rfl, ReferenceType.mentions_of_mem h⟩

theorem exists_of_mem_argumentListClasses {x : String} :
    ∀ {arguments : List TypeArgument}, x ∈ argumentListClasses arguments →
      ∃ bound r, .of bound r ∈ arguments ∧ ReferenceType.Mentions x r
  | [], h => by cases h
  | a :: rest, h => by
    rw [argumentListClasses] at h
    rcases List.mem_append.mp h with h | h
    · obtain ⟨bound, r, rfl, hr⟩ := TypeArgument.exists_of_mem h
      exact ⟨bound, r, List.mem_cons_self, hr⟩
    · obtain ⟨bound, r, ha, hr⟩ := exists_of_mem_argumentListClasses h
      exact ⟨bound, r, List.mem_cons_of_mem _ ha, hr⟩

end

theorem ReferenceType.mem_classes_iff {r : ReferenceType} {x : String} :
    x ∈ r.classes ↔ r.Mentions x := ⟨mentions_of_mem, Mentions.mem_classes⟩

theorem ValueType.mem_classes_iff {t : ValueType} {x : String} : x ∈ t.classes ↔ t.Mentions x := by
  constructor
  · exact mentions_of_mem
  · rintro ⟨r, rfl, hr⟩
    rw [classes]
    exact hr.mem_classes

theorem ClassType.mem_classes_iff {c : ClassType} {x : String} : x ∈ c.classes ↔ c.Mentions x :=
  ReferenceType.mem_classes_iff

theorem TypeParameter.mem_classes_iff {p : TypeParameter} {x : String} :
    x ∈ p.classes ↔ p.Mentions x := by
  unfold classes Mentions
  simp only [List.mem_flatMap, List.mem_append, Option.mem_toList, ReferenceType.mem_classes_iff]

theorem ClassSignature.mem_classes_iff {s : ClassSignature} {x : String} :
    x ∈ s.classes ↔ s.Mentions x := by
  unfold classes
  simp only [List.mem_append, List.mem_flatMap, TypeParameter.mem_classes_iff,
    ClassType.mem_classes_iff]
  constructor
  · rintro ((⟨p, hp, hx⟩ | hx) | ⟨c, hc, hx⟩)
    · exact .bound hp hx
    · exact .superclass hx
    · exact .interface hc hx
  · rintro (⟨hp, hx⟩ | hx | ⟨hc, hx⟩)
    · exact Or.inl (Or.inl ⟨_, hp, hx⟩)
    · exact Or.inl (Or.inr hx)
    · exact Or.inr ⟨_, hc, hx⟩

theorem MethodSignature.names_iff_mentions {s : MethodSignature} {x : String} :
    s.Names x ↔ s.Mentions x := by
  constructor
  · rintro (⟨ht, hx⟩ | ⟨ht, hx⟩ | ⟨ht, hx⟩ | ⟨hp, hx⟩)
    · exact .parameter ht (ValueType.mem_classes_iff.mp hx)
    · exact .result ht (ValueType.mem_classes_iff.mp hx)
    · exact .thrown ht (ReferenceType.mem_classes_iff.mp hx)
    · exact .bound hp (TypeParameter.mem_classes_iff.mp hx)
  · rintro (⟨ht, hx⟩ | ⟨ht, hx⟩ | ⟨ht, hx⟩ | ⟨hp, hx⟩)
    · exact .parameter ht (ValueType.mem_classes_iff.mpr hx)
    · exact .result ht (ValueType.mem_classes_iff.mpr hx)
    · exact .thrown ht (ReferenceType.mem_classes_iff.mpr hx)
    · exact .bound hp (TypeParameter.mem_classes_iff.mpr hx)

/-! ## In annotations -/

/-- A class stands in a value: as the type of an enum constant, as a class literal or as the
type of a nested annotation, or in a value inside. -/
inductive ElementValue.Mentions (x : String) : ElementValue → Prop
  | enumConstant {constant : String} : Mentions x (.enumConstant x constant)
  | classLiteral {descriptor : String} : Name.ofElementDescriptor? descriptor = some x →
      Mentions x (.classLiteral descriptor)
  | nestedType {elements : List (String × ElementValue)} : Mentions x (.nested x elements)
  | nestedValue {typeName name : String} {elements : List (String × ElementValue)}
      {v : ElementValue} : (name, v) ∈ elements → Mentions x v → Mentions x (.nested typeName elements)
  | item {values : List ElementValue} {v : ElementValue} : v ∈ values → Mentions x v →
      Mentions x (.array values)

/-- A class stands in an annotation: it is the type of it, or stands in one of its values. -/
def AnnotationRecord.Mentions (a : AnnotationRecord) (x : String) : Prop :=
  a.typeName = x ∨ ∃ name v, (name, v) ∈ a.elements ∧ ElementValue.Mentions x v

theorem elementClasses_eq (elements : List (String × ElementValue)) :
    elementClasses elements = elements.flatMap fun e => e.2.classes := by
  induction elements with
  | nil => rfl
  | cons e rest ih => rw [elementClasses, ih, List.flatMap_cons]

theorem valueClasses_eq (values : List ElementValue) :
    valueClasses values = values.flatMap ElementValue.classes := by
  induction values with
  | nil => rfl
  | cons v rest ih => rw [valueClasses, ih, List.flatMap_cons]

theorem ElementValue.Mentions.mem_classes {v : ElementValue} {x : String} (h : v.Mentions x) :
    x ∈ v.classes := by
  induction h with
  | enumConstant => simp [classes]
  | classLiteral hx => simp [classes, hx]
  | nestedType => simp [classes]
  | nestedValue hv _ ih =>
    rw [classes, elementClasses_eq]
    exact List.mem_cons_of_mem _ (List.mem_flatMap.mpr ⟨_, hv, ih⟩)
  | item hv _ ih =>
    rw [classes, valueClasses_eq]
    exact List.mem_flatMap.mpr ⟨_, hv, ih⟩

mutual

theorem ElementValue.mentions_of_mem {x : String} :
    ∀ {v : ElementValue}, x ∈ v.classes → v.Mentions x
  | .enumConstant typeName _, h => by
    rw [ElementValue.classes, List.mem_singleton] at h
    rw [← h]
    exact .enumConstant
  | .classLiteral descriptor, h => by
    rw [ElementValue.classes, Option.mem_toList] at h
    exact .classLiteral h
  | .nested typeName elements, h => by
    rw [ElementValue.classes] at h
    rcases List.mem_cons.mp h with rfl | h
    · exact .nestedType
    · obtain ⟨_, _, hv, hx⟩ := exists_of_mem_elementClasses h
      exact .nestedValue hv hx
  | .array values, h => by
    rw [ElementValue.classes] at h
    obtain ⟨_, hv, hx⟩ := exists_of_mem_valueClasses h
    exact .item hv hx
  | .byte _, h | .char _, h | .short _, h | .int _, h | .long _, h | .float _, h | .double _, h
  | .boolean _, h | .string _, h => by cases h

theorem exists_of_mem_elementClasses {x : String} :
    ∀ {elements : List (String × ElementValue)}, x ∈ elementClasses elements →
      ∃ name v, (name, v) ∈ elements ∧ ElementValue.Mentions x v
  | [], h => by cases h
  | (name, v) :: rest, h => by
    rw [elementClasses] at h
    rcases List.mem_append.mp h with h | h
    · exact ⟨name, v, List.mem_cons_self, ElementValue.mentions_of_mem h⟩
    · obtain ⟨name', v', hv, hx⟩ := exists_of_mem_elementClasses h
      exact ⟨name', v', List.mem_cons_of_mem _ hv, hx⟩

theorem exists_of_mem_valueClasses {x : String} :
    ∀ {values : List ElementValue}, x ∈ valueClasses values →
      ∃ v ∈ values, ElementValue.Mentions x v
  | [], h => by cases h
  | v :: rest, h => by
    rw [valueClasses] at h
    rcases List.mem_append.mp h with h | h
    · exact ⟨v, List.mem_cons_self, ElementValue.mentions_of_mem h⟩
    · obtain ⟨v', hv, hx⟩ := exists_of_mem_valueClasses h
      exact ⟨v', List.mem_cons_of_mem _ hv, hx⟩

end

theorem ElementValue.mem_classes_iff {v : ElementValue} {x : String} :
    x ∈ v.classes ↔ v.Mentions x := ⟨mentions_of_mem, Mentions.mem_classes⟩

theorem AnnotationRecord.mem_classes_iff {a : AnnotationRecord} {x : String} :
    x ∈ a.classes ↔ a.Mentions x := by
  unfold classes Mentions
  rw [List.mem_cons, eq_comm, elementClasses_eq, List.mem_flatMap]
  simp only [Prod.exists, ElementValue.mem_classes_iff]

/-! ## In records -/

/-- A class stands at a declaration of a record: in the header, or at a field or a method with
that origin. -/
inductive ClassRecord.MentionsAt (r : ClassRecord) (x : String) : Origin → Prop
  | superclass : r.superclass = some x → MentionsAt r x .header
  | interface : x ∈ r.interfaces → MentionsAt r x .header
  | signature {s : ClassSignature} : r.parsedSignature = some s → s.Mentions x →
      MentionsAt r x .header
  | annotated {a : AnnotationRecord} : a ∈ r.annotations → a.Mentions x → MentionsAt r x .header
  | fieldDescriptor {f : FieldRecord} {t : ValueType} : f ∈ r.fields →
      ValueType.parse f.descriptor = .ok t → t.Mentions x → MentionsAt r x f.origin
  | fieldSignature {f : FieldRecord} {t : ValueType} : f ∈ r.fields →
      f.parsedSignature = some t → t.Mentions x → MentionsAt r x f.origin
  | fieldAnnotated {f : FieldRecord} {a : AnnotationRecord} : f ∈ r.fields →
      a ∈ f.annotations → a.Mentions x → MentionsAt r x f.origin
  | methodDescriptor {m : MethodRecord} {s : MethodSignature} : m ∈ r.methods →
      MethodSignature.parse m.descriptor = .ok s → s.Mentions x → MentionsAt r x m.origin
  | methodSignature {m : MethodRecord} {s : MethodSignature} : m ∈ r.methods →
      m.parsedSignature = some s → s.Mentions x → MentionsAt r x m.origin
  | exception {m : MethodRecord} : m ∈ r.methods → x ∈ m.exceptions → MentionsAt r x m.origin
  | methodAnnotated {m : MethodRecord} {a : AnnotationRecord} : m ∈ r.methods →
      a ∈ m.annotations → a.Mentions x → MentionsAt r x m.origin
  | parameterAnnotated {m : MethodRecord} {list : List AnnotationRecord} {a : AnnotationRecord} :
      m ∈ r.methods → list ∈ m.parameterAnnotations → a ∈ list → a.Mentions x →
      MentionsAt r x m.origin
  | default {m : MethodRecord} {v : ElementValue} : m ∈ r.methods →
      m.annotationDefault = some v → v.Mentions x → MentionsAt r x m.origin

/-- A class stands in a record: at one of its declarations, or in its constant pool. -/
def ClassRecord.Mentions (r : ClassRecord) (x : String) : Prop :=
  (∃ origin, r.MentionsAt x origin) ∨ x ∈ r.referencedClasses

/-- A class stands in a record where it is visible like that: at a declaration of this visibility
or, in private, in the constant pool. -/
def ClassRecord.Names (r : ClassRecord) (v : Visibility) (x : String) : Prop :=
  (∃ origin : Origin, origin.visibility = v ∧ r.MentionsAt x origin) ∨
    v = .priv ∧ x ∈ r.referencedClasses

namespace ClassRecord

variable {r : ClassRecord} {x : String}

theorem Names.mentions {v : Visibility} (h : r.Names v x) : r.Mentions x :=
  h.imp (fun ⟨origin, _, hat⟩ => ⟨origin, hat⟩) And.right

theorem HeaderNames.mentionsAt (h : r.HeaderNames x) : r.MentionsAt x .header := by
  rcases h with (hx | hx) | ⟨hs, hx⟩ | ⟨ha, hx⟩
  · exact .superclass hx
  · exact .interface hx
  · exact .signature hs (ClassSignature.mem_classes_iff.mp hx)
  · exact .annotated ha (AnnotationRecord.mem_classes_iff.mp hx)

theorem mentionsAt_of_field {f : FieldRecord} (hf : f ∈ r.fields) (h : f.Names x) :
    r.MentionsAt x f.origin := by
  rcases h with ⟨ht, hx⟩ | ⟨ht, hx⟩ | ⟨ha, hx⟩
  · exact .fieldDescriptor hf ht (ValueType.mem_classes_iff.mp hx)
  · exact .fieldSignature hf ht (ValueType.mem_classes_iff.mp hx)
  · exact .fieldAnnotated hf ha (AnnotationRecord.mem_classes_iff.mp hx)

theorem mentionsAt_of_method {m : MethodRecord} (hm : m ∈ r.methods) (h : m.Names x) :
    r.MentionsAt x m.origin := by
  rcases h with ⟨hs, hx⟩ | ⟨hs, hx⟩ | hx | ⟨ha, hx⟩ | ⟨hlist, ha, hx⟩ | ⟨hv, hx⟩
  · exact .methodDescriptor hm hs (MethodSignature.names_iff_mentions.mp hx)
  · exact .methodSignature hm hs (MethodSignature.names_iff_mentions.mp hx)
  · exact .exception hm hx
  · exact .methodAnnotated hm ha (AnnotationRecord.mem_classes_iff.mp hx)
  · exact .parameterAnnotated hm hlist ha (AnnotationRecord.mem_classes_iff.mp hx)
  · exact .default hm hv (ElementValue.mem_classes_iff.mp hx)

/-- What stands at a declaration is what the header, a field or a method names. -/
theorem MentionsAt.names {origin : Origin} (h : r.MentionsAt x origin) :
    (origin = .header ∧ r.HeaderNames x) ∨ (∃ f ∈ r.fields, origin = f.origin ∧ f.Names x) ∨
      ∃ m ∈ r.methods, origin = m.origin ∧ m.Names x := by
  cases h with
  | superclass hx => exact Or.inl ⟨rfl, .supertype (Or.inl hx)⟩
  | interface hx => exact Or.inl ⟨rfl, .supertype (Or.inr hx)⟩
  | signature hs hx => exact Or.inl ⟨rfl, .signature hs (ClassSignature.mem_classes_iff.mpr hx)⟩
  | annotated ha hx => exact Or.inl ⟨rfl, .annotated ha (AnnotationRecord.mem_classes_iff.mpr hx)⟩
  | fieldDescriptor hf ht hx =>
    exact Or.inr (Or.inl ⟨_, hf, rfl, .descriptor ht (ValueType.mem_classes_iff.mpr hx)⟩)
  | fieldSignature hf ht hx =>
    exact Or.inr (Or.inl ⟨_, hf, rfl, .signature ht (ValueType.mem_classes_iff.mpr hx)⟩)
  | fieldAnnotated hf ha hx =>
    exact Or.inr (Or.inl ⟨_, hf, rfl, .annotated ha (AnnotationRecord.mem_classes_iff.mpr hx)⟩)
  | methodDescriptor hm hs hx =>
    exact Or.inr (Or.inr ⟨_, hm, rfl, .descriptor hs (MethodSignature.names_iff_mentions.mpr hx)⟩)
  | methodSignature hm hs hx =>
    exact Or.inr (Or.inr ⟨_, hm, rfl, .signature hs (MethodSignature.names_iff_mentions.mpr hx)⟩)
  | exception hm hx => exact Or.inr (Or.inr ⟨_, hm, rfl, .exception hx⟩)
  | methodAnnotated hm ha hx =>
    exact Or.inr (Or.inr ⟨_, hm, rfl, .annotated ha (AnnotationRecord.mem_classes_iff.mpr hx)⟩)
  | parameterAnnotated hm hlist ha hx =>
    exact Or.inr (Or.inr
      ⟨_, hm, rfl, .annotatedParameter hlist ha (AnnotationRecord.mem_classes_iff.mpr hx)⟩)
  | default hm hv hx =>
    exact Or.inr (Or.inr ⟨_, hm, rfl, .default hv (ElementValue.mem_classes_iff.mpr hx)⟩)

end ClassRecord

end ClassAtlas
