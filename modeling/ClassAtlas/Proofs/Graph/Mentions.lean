-- What a record names and the edges that are made of it. An edge says what a declaration names
-- and how visible that is; a mention that is left out is told by another edge with its target.
import ClassAtlas.Graph.Mention

namespace ClassAtlas

/-! ## The classes that a declaration names -/

/-- A method signature names a class in a parameter, in its result, in what it throws or in a
bound of a type parameter. -/
inductive MethodSignature.Names (s : MethodSignature) (x : String) : Prop
  | parameter {t : ValueType} : t ∈ s.parameters → x ∈ t.classes → Names s x
  | result {t : ValueType} : s.result = some t → x ∈ t.classes → Names s x
  | thrown {t : ThrownType} : t ∈ s.throws → x ∈ t.classes → Names s x
  | bound {p : TypeParameter} : p ∈ s.typeParameters → x ∈ p.classes → Names s x

/-- A field names the classes of its descriptor, if that can be read, of its signature and of
its annotations. -/
inductive FieldRecord.Names (f : FieldRecord) (x : String) : Prop
  | descriptor {t : ValueType} : ValueType.parse f.descriptor = .ok t → x ∈ t.classes → Names f x
  | signature {t : ValueType} : f.parsedSignature = some t → x ∈ t.classes → Names f x
  | annotated {a : AnnotationRecord} : a ∈ f.annotations → x ∈ a.classes → Names f x

/-- A method names the classes of its descriptor, if that can be read, of its signature, of its
annotations and of those of its parameters, the exceptions, and the classes in its default. -/
inductive MethodRecord.Names (m : MethodRecord) (x : String) : Prop
  | descriptor {s : MethodSignature} : MethodSignature.parse m.descriptor = .ok s → s.Names x →
      Names m x
  | signature {s : MethodSignature} : m.parsedSignature = some s → s.Names x → Names m x
  | exception : x ∈ m.exceptions → Names m x
  | annotated {a : AnnotationRecord} : a ∈ m.annotations → x ∈ a.classes → Names m x
  | annotatedParameter {list : List AnnotationRecord} {a : AnnotationRecord} :
      list ∈ m.parameterAnnotations → a ∈ list → x ∈ a.classes → Names m x
  | default {v : ElementValue} : m.annotationDefault = some v → x ∈ v.classes → Names m x

namespace ClassRecord

/-- A record names a class as one of its direct supertypes. -/
def NamesSupertype (r : ClassRecord) (x : String) : Prop := r.superclass = some x ∨ x ∈ r.interfaces

/-- The direct supertypes that a record names, those of one kind. -/
def supertypes (r : ClassRecord) : EdgeKind → List String
  | .superclass => r.superclass.toList
  | .interface => r.interfaces
  | _ => []

/-- The header of a class names its supertypes and the classes of its signature and of its
annotations. -/
inductive HeaderNames (r : ClassRecord) (x : String) : Prop
  | supertype : r.NamesSupertype x → HeaderNames r x
  | signature {s : ClassSignature} : r.parsedSignature = some s → x ∈ s.classes → HeaderNames r x
  | annotated {a : AnnotationRecord} : a ∈ r.annotations → x ∈ a.classes → HeaderNames r x

end ClassRecord

/-! ## Edges before any are left out -/

theorem mem_mentionsOf {kind : EdgeKind} {origin : Origin} {targets : List String} {e : Edge} :
    e ∈ mentionsOf kind origin targets ↔
      e.target ∈ targets ∧ e.kind = kind ∧ e.origin = origin := by
  unfold mentionsOf
  rw [List.mem_map]
  constructor
  · rintro ⟨x, hx, rfl⟩
    exact ⟨hx, rfl, rfl⟩
  · rintro ⟨hx, rfl, rfl⟩
    exact ⟨e.target, hx, rfl⟩

/-- Some edges say of a declaration that it names certain classes: all their targets, and at one
origin. -/
def Tells (edges : List Edge) (origin : Origin) (names : String → Prop) : Prop :=
  (∀ e ∈ edges, e.origin = origin ∧ names e.target) ∧ ∀ x, names x → ∃ e ∈ edges, e.target = x

theorem Tells.mono {edges : List Edge} {origin : Origin} {names names' : String → Prop}
    (h : Tells edges origin names) (heq : ∀ x, names x ↔ names' x) : Tells edges origin names' := by
  have hsame : names = names' := funext fun x => propext (heq x)
  rwa [← hsame]

theorem tells_mentionsOf (kind : EdgeKind) (origin : Origin) (targets : List String) :
    Tells (mentionsOf kind origin targets) origin fun x => x ∈ targets := by
  refine ⟨fun e he => ?_, fun x hx => ?_⟩
  · obtain ⟨htarget, _, horigin⟩ := mem_mentionsOf.mp he
    exact ⟨horigin, htarget⟩
  · exact ⟨⟨kind, x, origin⟩, mem_mentionsOf.mpr ⟨hx, rfl, rfl⟩, rfl⟩

theorem Tells.append {edges edges' : List Edge} {origin : Origin} {names names' : String → Prop}
    (h : Tells edges origin names) (h' : Tells edges' origin names') :
    Tells (edges ++ edges') origin fun x => names x ∨ names' x := by
  refine ⟨fun e he => ?_, fun x hx => ?_⟩
  · rcases List.mem_append.mp he with he | he
    · exact ⟨(h.1 e he).1, Or.inl (h.1 e he).2⟩
    · exact ⟨(h'.1 e he).1, Or.inr (h'.1 e he).2⟩
  · rcases hx with hx | hx
    · obtain ⟨e, he, htarget⟩ := h.2 x hx
      exact ⟨e, List.mem_append_left _ he, htarget⟩
    · obtain ⟨e, he, htarget⟩ := h'.2 x hx
      exact ⟨e, List.mem_append_right _ he, htarget⟩

theorem Tells.flatMap {α : Type} {items : List α} {edges : α → List Edge} {origin : Origin}
    {names : α → String → Prop} (h : ∀ a ∈ items, Tells (edges a) origin (names a)) :
    Tells (items.flatMap edges) origin fun x => ∃ a ∈ items, names a x := by
  refine ⟨fun e he => ?_, fun x hx => ?_⟩
  · obtain ⟨a, ha, he⟩ := List.mem_flatMap.mp he
    exact ⟨((h a ha).1 e he).1, a, ha, ((h a ha).1 e he).2⟩
  · obtain ⟨a, ha, hx⟩ := hx
    obtain ⟨e, he, htarget⟩ := (h a ha).2 x hx
    exact ⟨e, List.mem_flatMap.mpr ⟨a, ha, he⟩, htarget⟩

theorem tells_annotationMentions (origin : Origin) (annotations : List AnnotationRecord) :
    Tells (annotationMentions origin annotations) origin fun x =>
      ∃ a ∈ annotations, x ∈ a.classes := by
  refine ((tells_mentionsOf _ origin _).append (tells_mentionsOf _ origin _)).mono fun x => ?_
  simp only [List.mem_map, List.mem_flatMap, AnnotationRecord.classes, List.mem_cons]
  constructor
  · rintro (⟨a, ha, rfl⟩ | ⟨a, ha, hx⟩)
    · exact ⟨a, ha, Or.inl rfl⟩
    · exact ⟨a, ha, Or.inr hx⟩
  · rintro ⟨a, ha, rfl | hx⟩
    · exact Or.inl ⟨a, ha, rfl⟩
    · exact Or.inr ⟨a, ha, hx⟩

theorem mem_toList_toOption {ε α : Type} {result : Except ε α} {a : α} :
    a ∈ result.toOption.toList ↔ result = .ok a := by
  cases result <;> simp [Except.toOption, eq_comm]

theorem tells_headerMentions (r : ClassRecord) : Tells r.headerMentions .header r.HeaderNames := by
  have hparts := (((tells_mentionsOf .superclass .header r.superclass.toList).append
    (tells_mentionsOf .interface .header r.interfaces)).append
    (tells_mentionsOf .mention .header
      (r.parsedSignature.toList.flatMap ClassSignature.classes))).append
    (tells_annotationMentions .header r.annotations)
  refine hparts.mono fun x => ?_
  simp only [Option.mem_toList, List.mem_flatMap]
  constructor
  · rintro (((hx | hx) | ⟨s, hs, hx⟩) | ⟨a, ha, hx⟩)
    · exact .supertype (Or.inl hx)
    · exact .supertype (Or.inr hx)
    · exact .signature hs hx
    · exact .annotated ha hx
  · rintro ((hx | hx) | ⟨hs, hx⟩ | ⟨ha, hx⟩)
    · exact Or.inl (Or.inl (Or.inl hx))
    · exact Or.inl (Or.inl (Or.inr hx))
    · exact Or.inl (Or.inr ⟨_, hs, hx⟩)
    · exact Or.inr ⟨_, ha, hx⟩

theorem FieldRecord.mem_types {f : FieldRecord} {t : ValueType} : t ∈ f.types ↔
    ValueType.parse f.descriptor = .ok t ∨ f.parsedSignature = some t := by
  unfold types
  rw [List.mem_append, mem_toList_toOption, Option.mem_toList]

theorem FieldRecord.tells_mentions (f : FieldRecord) : Tells f.mentions f.origin f.Names := by
  refine ((tells_mentionsOf .fieldType f.origin _).append
    (tells_annotationMentions f.origin f.annotations)).mono fun x => ?_
  simp only [List.mem_flatMap, mem_types]
  constructor
  · rintro (⟨t, ht | ht, hx⟩ | ⟨a, ha, hx⟩)
    · exact .descriptor ht hx
    · exact .signature ht hx
    · exact .annotated ha hx
  · rintro (⟨ht, hx⟩ | ⟨ht, hx⟩ | ⟨ha, hx⟩)
    · exact Or.inl ⟨_, Or.inl ht, hx⟩
    · exact Or.inl ⟨_, Or.inr ht, hx⟩
    · exact Or.inr ⟨_, ha, hx⟩

theorem MethodRecord.mem_types {m : MethodRecord} {s : MethodSignature} : s ∈ m.types ↔
    MethodSignature.parse m.descriptor = .ok s ∨ m.parsedSignature = some s := by
  unfold types
  rw [List.mem_append, mem_toList_toOption, Option.mem_toList]

theorem MethodRecord.names_iff {m : MethodRecord} {x : String} : m.Names x ↔
    (∃ s ∈ m.types, s.Names x) ∨ x ∈ m.exceptions ∨ (∃ a ∈ m.annotations, x ∈ a.classes) ∨
      (∃ list ∈ m.parameterAnnotations, ∃ a ∈ list, x ∈ a.classes) ∨
      ∃ v, m.annotationDefault = some v ∧ x ∈ v.classes := by
  constructor
  · rintro (⟨hs, hx⟩ | ⟨hs, hx⟩ | hx | ⟨ha, hx⟩ | ⟨hlist, ha, hx⟩ | ⟨hv, hx⟩)
    · exact Or.inl ⟨_, mem_types.mpr (Or.inl hs), hx⟩
    · exact Or.inl ⟨_, mem_types.mpr (Or.inr hs), hx⟩
    · exact Or.inr (Or.inl hx)
    · exact Or.inr (Or.inr (Or.inl ⟨_, ha, hx⟩))
    · exact Or.inr (Or.inr (Or.inr (Or.inl ⟨_, hlist, _, ha, hx⟩)))
    · exact Or.inr (Or.inr (Or.inr (Or.inr ⟨_, hv, hx⟩)))
  · rintro (⟨s, hs, hx⟩ | hx | ⟨a, ha, hx⟩ | ⟨list, hlist, a, ha, hx⟩ | ⟨v, hv, hx⟩)
    · rcases mem_types.mp hs with hs | hs
      · exact .descriptor hs hx
      · exact .signature hs hx
    · exact .exception hx
    · exact .annotated ha hx
    · exact .annotatedParameter hlist ha hx
    · exact .default hv hx

theorem MethodRecord.tells_mentions (m : MethodRecord) : Tells m.mentions m.origin m.Names := by
  have hparts := ((((((tells_mentionsOf .parameterType m.origin
      (m.types.flatMap fun s => s.parameters.flatMap ValueType.classes)).append
    (tells_mentionsOf .returnType m.origin
      (m.types.flatMap fun s => s.result.toList.flatMap ValueType.classes))).append
    (tells_mentionsOf .thrownType m.origin
      ((m.types.flatMap fun s => s.throws.flatMap ThrownType.classes) ++ m.exceptions))).append
    (tells_mentionsOf .mention m.origin (m.types.flatMap MethodSignature.boundClasses))).append
    (tells_annotationMentions m.origin m.annotations)).append
    (Tells.flatMap fun (list : List AnnotationRecord) (_ : list ∈ m.parameterAnnotations) =>
      tells_annotationMentions m.origin list)).append
    (tells_mentionsOf .mention m.origin (m.annotationDefault.toList.flatMap ElementValue.classes))
  refine hparts.mono fun x => ?_
  rw [names_iff]
  simp only [List.mem_append, List.mem_flatMap, MethodSignature.boundClasses, Option.mem_toList]
  constructor
  · rintro ((((((⟨s, hs, t, ht, hx⟩ | ⟨s, hs, t, ht, hx⟩) | (⟨s, hs, t, ht, hx⟩ | hx)) |
      ⟨s, hs, p, hp, hx⟩) | ha) | hlist) | hv)
    · exact Or.inl ⟨s, hs, .parameter ht hx⟩
    · exact Or.inl ⟨s, hs, .result ht hx⟩
    · exact Or.inl ⟨s, hs, .thrown ht hx⟩
    · exact Or.inr (Or.inl hx)
    · exact Or.inl ⟨s, hs, .bound hp hx⟩
    · exact Or.inr (Or.inr (Or.inl ha))
    · exact Or.inr (Or.inr (Or.inr (Or.inl hlist)))
    · exact Or.inr (Or.inr (Or.inr (Or.inr hv)))
  · rintro (⟨s, hs, ⟨ht, hx⟩ | ⟨ht, hx⟩ | ⟨ht, hx⟩ | ⟨hp, hx⟩⟩ | hx | ha | hlist | hv)
    · exact Or.inl (Or.inl (Or.inl (Or.inl (Or.inl (Or.inl ⟨s, hs, _, ht, hx⟩)))))
    · exact Or.inl (Or.inl (Or.inl (Or.inl (Or.inl (Or.inr ⟨s, hs, _, ht, hx⟩)))))
    · exact Or.inl (Or.inl (Or.inl (Or.inl (Or.inr (Or.inl ⟨s, hs, _, ht, hx⟩)))))
    · exact Or.inl (Or.inl (Or.inl (Or.inr ⟨s, hs, _, hp, hx⟩)))
    · exact Or.inl (Or.inl (Or.inl (Or.inl (Or.inr (Or.inr hx)))))
    · exact Or.inl (Or.inl (Or.inr ha))
    · exact Or.inl (Or.inr hlist)
    · exact Or.inr hv

theorem isHierarchy_annotationMentions {origin : Origin} {annotations : List AnnotationRecord}
    {e : Edge} (he : e ∈ annotationMentions origin annotations) : e.kind.isHierarchy = false := by
  unfold annotationMentions at he
  rw [List.mem_append, mem_mentionsOf, mem_mentionsOf] at he
  rcases he with ⟨_, hkind, _⟩ | ⟨_, hkind, _⟩ <;> rw [hkind] <;> rfl

theorem FieldRecord.isHierarchy_mentions {f : FieldRecord} {e : Edge} (he : e ∈ f.mentions) :
    e.kind.isHierarchy = false := by
  unfold mentions at he
  rcases List.mem_append.mp he with he | he
  · rw [(mem_mentionsOf.mp he).2.1]
    rfl
  · exact isHierarchy_annotationMentions he

theorem MethodRecord.isHierarchy_mentions {m : MethodRecord} {e : Edge} (he : e ∈ m.mentions) :
    e.kind.isHierarchy = false := by
  unfold mentions at he
  simp only [List.mem_append, mem_mentionsOf, List.mem_flatMap] at he
  rcases he with (((((⟨_, hkind, _⟩ | ⟨_, hkind, _⟩) | ⟨_, hkind, _⟩) | ⟨_, hkind, _⟩) | he) |
    ⟨_, _, he⟩) | ⟨_, hkind, _⟩
  · rw [hkind]; rfl
  · rw [hkind]; rfl
  · rw [hkind]; rfl
  · rw [hkind]; rfl
  · exact isHierarchy_annotationMentions he
  · exact isHierarchy_annotationMentions he
  · rw [hkind]; rfl

/-! ## The edges that are kept -/

section

variable {owner : String} {edges mentions : List Edge}

theorem mem_addTo {new e : Edge} (he : e ∈ Edge.addTo owner edges new) : e ∈ edges ∨ e = new := by
  unfold Edge.addTo at he
  split at he
  · exact Or.inl he
  · simpa using he

theorem subset_addTo (new : Edge) : edges ⊆ Edge.addTo owner edges new := by
  unfold Edge.addTo
  split
  · exact List.Subset.refl edges
  · exact List.subset_append_left _ _

theorem exists_covers_addTo {new : Edge} (hkept : new.target ≠ owner ∨ new.kind.isHierarchy) :
    ∃ old ∈ Edge.addTo owner edges new, old.covers new := by
  have hnot : (decide (new.target = owner) && !new.kind.isHierarchy) = false := by
    rcases hkept with h | h <;> simp [h]
  unfold Edge.addTo
  rw [hnot, Bool.false_or]
  split
  · rename_i hany
    exact List.any_eq_true.mp hany
  · exact ⟨new, by simp, by simp [Edge.covers]⟩

theorem mem_foldl_addTo {e : Edge} (he : e ∈ mentions.foldl (Edge.addTo owner) edges) :
    e ∈ edges ∨ e ∈ mentions := by
  induction mentions generalizing edges with
  | nil => exact Or.inl he
  | cons new rest ih =>
    rcases ih he with he | he
    · rcases mem_addTo he with he | rfl
      · exact Or.inl he
      · exact Or.inr List.mem_cons_self
    · exact Or.inr (List.mem_cons_of_mem _ he)

theorem subset_foldl_addTo : edges ⊆ mentions.foldl (Edge.addTo owner) edges := by
  induction mentions generalizing edges with
  | nil => exact List.Subset.refl edges
  | cons new rest ih => exact List.Subset.trans (subset_addTo new) ih

/-- Each mention is told by an edge, but for those of the owner that are no supertypes. -/
theorem exists_covers_foldl {new : Edge} (hnew : new ∈ mentions)
    (hkept : new.target ≠ owner ∨ new.kind.isHierarchy) :
    ∃ old ∈ mentions.foldl (Edge.addTo owner) edges, old.covers new := by
  induction mentions generalizing edges with
  | nil => cases hnew
  | cons first rest ih =>
    rw [List.foldl_cons]
    rcases List.mem_cons.mp hnew with rfl | hnew
    · obtain ⟨old, hold, hcovers⟩ : ∃ old ∈ Edge.addTo owner edges new, old.covers new :=
        exists_covers_addTo hkept
      exact ⟨old, subset_foldl_addTo hold, hcovers⟩
    · exact ih hnew

theorem covers_iff {old new : Edge} : old.covers new = true ↔
    old.target = new.target ∧ old.origin = new.origin ∧
      (old.kind = new.kind ∨ new.kind = .mention) := by
  simp [Edge.covers, and_assoc]

end

/-! ## Supertype edges -/

namespace ClassRecord

/-- Only the header mentions supertypes. -/
theorem mem_headerMentions {r : ClassRecord} {e : Edge} (he : e ∈ r.declaredMentions)
    (hkind : e.kind.isHierarchy) : e ∈ r.headerMentions := by
  unfold declaredMentions at he
  rw [List.mem_append, List.mem_append, List.mem_flatMap, List.mem_flatMap] at he
  rcases he with (he | ⟨f, _, he⟩) | ⟨m, _, he⟩
  · exact he
  · rw [f.isHierarchy_mentions he] at hkind
    cases hkind
  · rw [m.isHierarchy_mentions he] at hkind
    cases hkind

theorem target_mem_supertypes {r : ClassRecord} {e : Edge} (he : e ∈ r.declaredMentions)
    (hkind : e.kind.isHierarchy) : e.target ∈ r.supertypes e.kind := by
  have hheader := mem_headerMentions he hkind
  unfold headerMentions at hheader
  simp only [List.mem_append, mem_mentionsOf] at hheader
  rcases hheader with ((⟨hx, hsuperclass, _⟩ | ⟨hx, hinterface, _⟩) | ⟨_, hmention, _⟩) | he
  · rwa [hsuperclass]
  · rwa [hinterface]
  · rw [hmention] at hkind
    cases hkind
  · rw [isHierarchy_annotationMentions he] at hkind
    cases hkind

theorem exists_mention_of_mem_supertypes {r : ClassRecord} {kind : EdgeKind} {x : String}
    (hx : x ∈ r.supertypes kind) : ∃ e ∈ r.declaredMentions, e.kind = kind ∧ e.target = x := by
  unfold declaredMentions headerMentions
  cases kind with
  | superclass => exact ⟨⟨.superclass, x, .header⟩, by simp_all [mem_mentionsOf, supertypes], rfl, rfl⟩
  | interface => exact ⟨⟨.interface, x, .header⟩, by simp_all [mem_mentionsOf, supertypes], rfl, rfl⟩
  | _ => cases hx

theorem mem_declaredMentions {r : ClassRecord} {e : Edge} (he : e ∈ r.edges)
    (hkind : e.kind.isHierarchy) : e ∈ r.declaredMentions := by
  unfold edges at he
  rcases mem_foldl_addTo he with he | he
  · rcases mem_foldl_addTo he with he | he
    · cases he
    · exact he
  · rw [(mem_mentionsOf.mp he).2.1] at hkind
    cases hkind

/-- The edges of one kind lead to the supertypes of that kind. -/
theorem exists_edge_of_kind_iff {r : ClassRecord} {kind : EdgeKind} (hkind : kind.isHierarchy)
    {x : String} : (∃ e ∈ r.edges, e.kind = kind ∧ e.target = x) ↔ x ∈ r.supertypes kind := by
  constructor
  · rintro ⟨e, he, rfl, rfl⟩
    exact target_mem_supertypes (mem_declaredMentions he hkind) hkind
  · intro hx
    obtain ⟨new, hnew, rfl, rfl⟩ := exists_mention_of_mem_supertypes hx
    obtain ⟨old, hold, hcovers⟩ : ∃ old ∈ r.declaredMentions.foldl (Edge.addTo r.name) [],
        old.covers new := exists_covers_foldl hnew (Or.inr hkind)
    obtain ⟨htarget, _, hkinds⟩ := covers_iff.mp hcovers
    refine ⟨old, subset_foldl_addTo hold, ?_, htarget⟩
    -- a supertype edge is covered by one of its own kind only
    rcases hkinds with hsame | hmention
    · exact hsame
    · rw [hmention] at hkind
      cases hkind

theorem namesSupertype_iff {r : ClassRecord} {x : String} :
    r.NamesSupertype x ↔ ∃ kind : EdgeKind, kind.isHierarchy ∧ x ∈ r.supertypes kind := by
  unfold NamesSupertype
  constructor
  · rintro (hx | hx)
    · exact ⟨.superclass, rfl, Option.mem_toList.mpr hx⟩
    · exact ⟨.interface, rfl, hx⟩
  · rintro ⟨kind, _, hx⟩
    cases kind with
    | superclass => exact Or.inl (Option.mem_toList.mp hx)
    | interface => exact Or.inr hx
    | _ => cases hx

/-- The supertype edges of a record lead to the supertypes that it names. -/
theorem exists_hierarchy_edge_iff {r : ClassRecord} {x : String} :
    (∃ e ∈ r.edges, e.kind.isHierarchy ∧ e.target = x) ↔ r.NamesSupertype x := by
  rw [namesSupertype_iff]
  constructor
  · rintro ⟨e, he, hkind, rfl⟩
    exact ⟨e.kind, hkind, (exists_edge_of_kind_iff hkind).mp ⟨e, he, rfl, rfl⟩⟩
  · rintro ⟨kind, hkind, hx⟩
    obtain ⟨e, he, rfl, rfl⟩ := (exists_edge_of_kind_iff hkind).mpr hx
    exact ⟨e, he, hkind, rfl⟩

end ClassRecord

end ClassAtlas
