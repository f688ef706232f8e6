-- Reading a descriptor with and without invisible annotations. The same bytes are accepted, with
-- the same issues, and without them only annotations are missing from the class. Two readers are
-- compared that stop at the same place; in the body of an attribute they need not, since the next
-- attribute begins where the length says.
import Mathlib.Data.List.Forall2
import ClassAtlas.Proofs.Descriptor.Layout

namespace ClassAtlas

/-! ## Annotations left out -/

/-- Some annotations left out of each slot, and some slots at the end left out as a whole. -/
inductive SlotsThinned : List (List AnnotationRecord) → List (List AnnotationRecord) → Prop
  | nil (slots : List (List AnnotationRecord)) : SlotsThinned slots []
  | cons {slot fewer : List AnnotationRecord} {slots rest : List (List AnnotationRecord)} :
      fewer.Sublist slot → SlotsThinned slots rest → SlotsThinned (slot :: slots) (fewer :: rest)

/-- Some annotations left out of a field. -/
inductive FieldRecord.Thinned (f : FieldRecord) : FieldRecord → Prop
  | mk {annotations : List AnnotationRecord} :
      annotations.Sublist f.annotations → f.Thinned { f with annotations }

/-- Some annotations left out of a method and of its parameters. -/
inductive MethodRecord.Thinned (m : MethodRecord) : MethodRecord → Prop
  | mk {annotations : List AnnotationRecord} {parameterAnnotations : List (List AnnotationRecord)} :
      annotations.Sublist m.annotations → SlotsThinned m.parameterAnnotations parameterAnnotations →
      m.Thinned { m with annotations, parameterAnnotations }

/-- Some annotations left out of a class, its fields and its methods. -/
inductive ClassRecord.Thinned (r : ClassRecord) : ClassRecord → Prop
  | mk {fields : List FieldRecord} {methods : List MethodRecord} {annotations : List AnnotationRecord} :
      List.Forall₂ FieldRecord.Thinned r.fields fields →
      List.Forall₂ MethodRecord.Thinned r.methods methods → annotations.Sublist r.annotations →
      r.Thinned { r with fields, methods, annotations }

open Descriptor (mergeParameters)

theorem slotsThinned_refl (slots : List (List AnnotationRecord)) : SlotsThinned slots slots := by
  induction slots with
  | nil => exact .nil []
  | cons slot slots ih => exact .cons (.refl slot) ih

/-- Annotations that are put behind those known so far keep what is left out of these. -/
theorem SlotsThinned.merge {known fewer : List (List AnnotationRecord)}
    (h : SlotsThinned known fewer) (more : List (List AnnotationRecord)) :
    SlotsThinned (mergeParameters known more) (mergeParameters fewer more) := by
  induction h generalizing more with
  | nil known =>
    rw [PoolBuilder.mergeParameters_nil]
    induction known generalizing more with
    | nil =>
      rw [PoolBuilder.mergeParameters_nil]
      exact slotsThinned_refl more
    | cons slot known ih =>
      cases more with
      | nil => exact .nil _
      | cons b more => exact .cons (List.sublist_append_right slot b) (ih more)
  | @cons slot fewer slots rest hslot hrest ih =>
    cases more with
    | nil => exact .cons hslot hrest
    | cons b more => exact .cons (hslot.append (.refl b)) (ih more)

/-- Annotations that are not put behind those known so far are left out. -/
theorem SlotsThinned.unmerged {known fewer : List (List AnnotationRecord)}
    (h : SlotsThinned known fewer) (more : List (List AnnotationRecord)) :
    SlotsThinned (mergeParameters known more) fewer := by
  induction h generalizing more with
  | nil known => exact .nil _
  | @cons slot fewer slots rest hslot hrest ih =>
    cases more with
    | nil => exact .cons hslot hrest
    | cons b more => exact .cons (hslot.trans (List.sublist_append_left slot b)) (ih more)

/-! ## Two readers of the same bytes -/

namespace Decoder

variable {α β γ δ : Type}

/-- If the first reader answers, then so does the second one. Both stop at the same place, and
their answers are related. -/
def Entails (reader : Decoder α) (other : Decoder β) (R : α → β → Prop) : Prop :=
  ∀ c a c', reader c = .ok a c' → ∃ b, other c = .ok b c' ∧ R a b

variable {R : α → β → Prop}

theorem entails_pure {a : α} {b : β} (h : R a b) : Entails (pure a) (pure b) R := by
  rintro c _ _ ⟨⟩
  exact ⟨b, rfl, h⟩

theorem Entails.bind {Q : γ → δ → Prop} {reader : Decoder γ} {other : Decoder δ}
    {next : γ → Decoder α} {next' : δ → Decoder β} (h : Entails reader other Q)
    (hnext : ∀ a b, Q a b → Entails (next a) (next' b) R) :
    Entails (reader >>= next) (other >>= next') R := by
  intro c a c' hok
  obtain ⟨x, c₁, hfirst, hsecond⟩ := bind_eq_ok hok
  obtain ⟨y, hother, hxy⟩ := h c x c₁ hfirst
  rw [bind_of_ok hother]
  exact hnext x y hxy c₁ a c' hsecond

/-- Both readers begin with the same step. -/
theorem entails_bind {reader : Decoder γ} {next : γ → Decoder α} {next' : γ → Decoder β}
    (hnext : ∀ a, Entails (next a) (next' a) R) :
    Entails (reader >>= next) (reader >>= next') R := by
  have hsame : Entails reader reader Eq := fun _ a _ hok => ⟨a, hok, rfl⟩
  refine hsame.bind fun a b hab => ?_
  rw [hab]
  exact hnext b

theorem Entails.times {reader : Decoder α} {other : Decoder β} (h : Entails reader other R)
    (n : Nat) : Entails (times n reader) (times n other) (List.Forall₂ R) := by
  induction n with
  | zero => exact entails_pure .nil
  | succ n ih =>
    exact h.bind fun a b hab => ih.bind fun items others hrest => entails_pure (.cons hab hrest)

theorem Entails.counted {reader : Decoder α} {other : Decoder β} (h : Entails reader other R) :
    Entails (counted reader) (counted other) (List.Forall₂ R) :=
  entails_bind fun count => h.times count.toNat

theorem Entails.within {reader : Decoder α} {other : Decoder β} (h : Entails reader other R)
    (bytes : Bytes) : Entails (within bytes reader) (within bytes other) R := by
  intro c a c' hok
  obtain ⟨hrun, rfl⟩ := within_eq_ok hok
  obtain ⟨c₁, hread⟩ := run_eq_ok hrun
  obtain ⟨b, hother, hab⟩ := h _ a c₁ hread
  exact ⟨b, within_of_ok (run_of_ok hother), hab⟩

/-- The second reader passes over bytes that stand on their own. -/
theorem entails_passed {reader : Decoder α} {b : β} (h : Gives reader fun a => R a b)
    (bytes : Bytes) : Entails (within bytes reader) (within bytes (pure b)) R := by
  intro c a c' hok
  obtain ⟨hrun, rfl⟩ := within_eq_ok hok
  exact ⟨b, within_of_ok rfl, h.run hrun⟩

theorem Entails.run {reader : Decoder α} {other : Decoder β} (h : Entails reader other R)
    {bytes : Bytes} {a : α} (hrun : run reader bytes = .ok a) :
    ∃ b, run other bytes = .ok b ∧ R a b := by
  obtain ⟨c, hread⟩ := run_eq_ok hrun
  obtain ⟨b, hother, hab⟩ := h _ a c hread
  exact ⟨b, run_of_ok hother, hab⟩

end Decoder

namespace Descriptor

open Decoder

variable {pool : ConstantPool}

/-! ## Attributes -/

section

variable {σ : Type} {R : σ → σ → Prop} {visit visit' : String → σ → Decoder σ}
  (hvisit : ∀ name known fewer body, R known fewer →
    Entails (within body (visit name known)) (within body (visit' name fewer)) R)

include hvisit

theorem entails_attributes (count : Nat) {known fewer : σ} (h : R known fewer) :
    Entails (attributes pool visit count known) (attributes pool visit' count fewer) R := by
  induction count generalizing known fewer with
  | zero => exact entails_pure h
  | succ count ih =>
    refine entails_bind fun _ => entails_bind fun _ => entails_bind fun name => ?_
    refine entails_bind fun body => ?_
    exact (hvisit name known fewer body h).bind fun _ _ hnext => ih hnext

theorem entails_attributeTable {known fewer : σ} (h : R known fewer) :
    Entails (attributeTable pool visit known) (attributeTable pool visit' fewer) R :=
  entails_bind fun count => entails_attributes hvisit count.toNat h

theorem entails_member {μ : Type} {S : μ → μ → Prop} {bare : UInt16 → String → String → σ}
    {put : String → String → σ → μ}
    (hbare : ∀ access name descriptor, R (bare access name descriptor) (bare access name descriptor))
    (hput : ∀ name descriptor known fewer, R known fewer →
      S (put name descriptor known) (put name descriptor fewer)) :
    Entails (member pool visit bare put) (member pool visit' bare put) S := by
  refine entails_bind fun access => entails_bind fun name => entails_bind fun descriptor => ?_
  exact (entails_attributeTable hvisit (hbare access name descriptor)).bind fun known fewer h =>
    entails_pure (hput name descriptor known fewer h)

end

/-! ## Fields -/

theorem entails_fieldAttribute (name : String) (f f' : FieldRecord) (body : Bytes) (h : f.Thinned f') :
    Entails (within body (fieldAttribute ⟨true⟩ pool name f))
      (within body (fieldAttribute ⟨false⟩ pool name f')) FieldRecord.Thinned := by
  obtain ⟨hfewer⟩ := h
  unfold fieldAttribute
  split
  · exact (entails_bind fun _ => entails_pure (.mk hfewer)).within body
  · exact (entails_bind fun _ => entails_pure (.mk hfewer)).within body
  · exact (entails_bind fun more => entails_pure (.mk (hfewer.append (.refl more)))).within body
  · exact entails_passed (gives_bind fun more =>
      gives_pure (.mk (hfewer.trans (List.sublist_append_left _ more)))) body
  · exact (entails_pure (.mk hfewer)).within body

theorem entails_field :
    Entails (field ⟨true⟩ pool) (field ⟨false⟩ pool) fun x y => x.1.Thinned y.1 ∧ y.2 = x.2 := by
  rw [field_eq_member, field_eq_member]
  refine entails_member entails_fieldAttribute (fun access name descriptor => .mk (.refl _)) ?_
  rintro name descriptor f _ ⟨hfewer⟩
  exact ⟨.mk hfewer, rfl⟩

/-! ## Methods -/

theorem entails_methodAttribute (name : String) (m m' : MethodRecord) (body : Bytes)
    (h : m.Thinned m') :
    Entails (within body (methodAttribute ⟨true⟩ pool name m))
      (within body (methodAttribute ⟨false⟩ pool name m')) MethodRecord.Thinned := by
  obtain ⟨hfewer, hslots⟩ := h
  unfold methodAttribute
  split
  · exact (entails_bind fun _ => entails_pure (.mk hfewer hslots)).within body
  · exact (entails_bind fun _ => entails_pure (.mk hfewer hslots)).within body
  · exact (entails_bind fun more =>
      entails_pure (.mk (hfewer.append (.refl more)) hslots)).within body
  · exact entails_passed (gives_bind fun more =>
      gives_pure (.mk (hfewer.trans (List.sublist_append_left _ more)) hslots)) body
  · exact (entails_bind fun more => entails_pure (.mk hfewer (hslots.merge more))).within body
  · exact entails_passed (gives_bind fun more =>
      gives_pure (.mk hfewer (hslots.unmerged more))) body
  · exact (entails_bind fun _ => entails_pure (.mk hfewer hslots)).within body
  · exact (entails_pure (.mk hfewer hslots)).within body

theorem entails_method :
    Entails (method ⟨true⟩ pool) (method ⟨false⟩ pool) fun x y => x.1.Thinned y.1 ∧ y.2 = x.2 := by
  rw [method_eq_member, method_eq_member]
  refine entails_member entails_methodAttribute
    (fun access name descriptor => .mk (.refl _) (slotsThinned_refl _)) ?_
  rintro name descriptor m _ ⟨hfewer, hslots⟩
  exact ⟨.mk hfewer hslots, rfl⟩

/-! ## The class -/

theorem entails_classAttribute (name : String) (r r' : ClassRecord) (body : Bytes)
    (h : r.Thinned r') :
    Entails (within body (classAttribute ⟨true⟩ pool name r))
      (within body (classAttribute ⟨false⟩ pool name r')) ClassRecord.Thinned := by
  obtain ⟨hfields, hmethods, hfewer⟩ := h
  unfold classAttribute
  split
  · exact (entails_bind fun _ => entails_pure (.mk hfields hmethods hfewer)).within body
  · exact (entails_bind fun more =>
      entails_pure (.mk hfields hmethods (hfewer.append (.refl more)))).within body
  · exact entails_passed (gives_bind fun more =>
      gives_pure (.mk hfields hmethods (hfewer.trans (List.sublist_append_left _ more)))) body
  · exact (entails_bind fun _ => entails_pure (.mk hfields hmethods hfewer)).within body
  · exact (entails_pure (.mk hfields hmethods hfewer)).within body

/-- The members of two classes, side by side: their records, and their issues as a whole. -/
theorem thinned_members {μ : Type} {Thinned : μ → μ → Prop} {members members' : List (μ × List SignatureIssue)}
    (h : List.Forall₂ (fun x y => Thinned x.1 y.1 ∧ y.2 = x.2) members members') :
    List.Forall₂ Thinned (members.map (·.1)) (members'.map (·.1)) ∧
      members'.flatMap (·.2) = members.flatMap (·.2) := by
  induction h with
  | nil => exact ⟨.nil, rfl⟩
  | cons hmember _ ih =>
    obtain ⟨hthinned, hissues⟩ := hmember
    exact ⟨.cons hthinned ih.1, by simp only [List.flatMap_cons, hissues, ih.2]⟩

theorem entails_decodeBody (minor major : UInt16) :
    Entails (decodeBody ⟨true⟩ minor major pool) (decodeBody ⟨false⟩ minor major pool)
      fun d d' => d.record.Thinned d'.record ∧ d'.issues = d.issues := by
  refine entails_bind fun access => entails_bind fun name => entails_bind fun superclass => ?_
  refine entails_bind fun interfaces => ?_
  refine entails_field.counted.bind fun fields fields' hfields => ?_
  refine entails_method.counted.bind fun methods methods' hmethods => ?_
  obtain ⟨hfields, hfieldIssues⟩ := thinned_members hfields
  obtain ⟨hmethods, hmethodIssues⟩ := thinned_members hmethods
  refine (entails_attributeTable entails_classAttribute (.mk hfields hmethods (.refl _))).bind ?_
  rintro r _ ⟨hfields, hmethods, hfewer⟩
  refine entails_bind fun constants => entails_pure ⟨.mk hfields hmethods hfewer, ?_⟩
  rw [hfieldIssues, hmethodIssues]

/-- Whoever leaves out the invisible annotations reads the same class of all bytes that are
accepted otherwise, with the same issues. Only annotations are missing, of the class, of its
members and of the parameters of its methods, and those that are left stand in their order. -/
theorem only_annotations_are_missing {bytes : Bytes} {d : DecodedClass}
    (h : decode ⟨true⟩ bytes = .ok d) :
    ∃ d', decode ⟨false⟩ bytes = .ok d' ∧ d.record.Thinned d'.record ∧ d'.issues = d.issues := by
  have hclass : Entails (decodeClass ⟨true⟩) (decodeClass ⟨false⟩)
      fun d d' => d.record.Thinned d'.record ∧ d'.issues = d.issues :=
    entails_bind fun version => entails_bind fun pool => entails_decodeBody version.1 version.2
  exact hclass.run h

/-- The constants of a gate, with two types of annotations. -/
def gateConstants : List Constant :=
  [.text "Gate", .classRef 1, .text "open", .text "(II)V", .text "LSeen;", .text "LHidden;",
    .text "RuntimeVisibleAnnotations", .text "RuntimeInvisibleAnnotations",
    .text "RuntimeVisibleParameterAnnotations", .text "RuntimeInvisibleParameterAnnotations"]

theorem gateConstants_fit : ∀ c ∈ gateConstants, c.Fits := by
  have htexts : ∀ text ∈ ["Gate", "open", "(II)V", "LSeen;", "LHidden;", "RuntimeVisibleAnnotations",
      "RuntimeInvisibleAnnotations", "RuntimeVisibleParameterAnnotations",
      "RuntimeInvisibleParameterAnnotations"], TextFits text := by decide
  simpa [gateConstants, Constant.Fits] using htexts

theorem countFits_nil (α : Type) : CountFits ([] : List α) := Nat.zero_le _

/-- A class with a method. Both have annotations that are seen behind some that are hidden, and
one of two parameters of the method has hidden ones only. -/
def gate : RawClass where
  head := {
    minor := 0, major := 52, access := 0x0021, name := 2, superclass := 0
    constants := ⟨_, _, ConstantPool.reads_ofConstants gateConstants_fit (by decide)⟩
    interfaces := ⟨[], countFits_nil UInt16⟩ }
  fields := ⟨[], countFits_nil RawMember⟩
  methods := ⟨[⟨0x0001, 3, 4, ⟨[
    ⟨10, [2, 0, 1, 0, 6, 0, 0, 0, 1, 0, 6, 0, 0], by decide⟩,
    ⟨9, [1, 0, 1, 0, 5, 0, 0], by decide⟩,
    ⟨8, [0, 1, 0, 6, 0, 0], by decide⟩], by simp [CountFits]⟩⟩], by simp [CountFits]⟩
  attributes := ⟨[
    ⟨8, [0, 1, 0, 6, 0, 0], by decide⟩,
    ⟨7, [0, 2, 0, 5, 0, 0, 0, 5, 0, 0], by decide⟩,
    ⟨8, [0, 1, 0, 6, 0, 0], by decide⟩], by simp [CountFits]⟩

/-- The types of the annotations of a class, and those on the parameters of its methods. -/
def annotationTypes (d : DecodedClass) : List String × List (List (List String)) :=
  (d.record.annotations.map AnnotationRecord.typeName,
    d.record.methods.map fun m => m.parameterAnnotations.map (·.map AnnotationRecord.typeName))

theorem a_gate_without_what_is_hidden :
    ∃ d d', decode ⟨true⟩ gate.bytes = .ok d ∧ decode ⟨false⟩ gate.bytes = .ok d' ∧
      d.record.Thinned d'.record ∧ d'.issues = d.issues ∧
      annotationTypes d = (["Hidden", "Seen", "Seen", "Hidden"], [[["Hidden", "Seen"], ["Hidden"]]]) ∧
      annotationTypes d' = (["Seen", "Seen"], [[["Seen"]]]) := by
  have hfull : (decode ⟨true⟩ gate.bytes).toOption.map annotationTypes =
      some (["Hidden", "Seen", "Seen", "Hidden"], [[["Hidden", "Seen"], ["Hidden"]]]) := by
    decide +kernel
  have hthin : (decode ⟨false⟩ gate.bytes).toOption.map annotationTypes =
      some (["Seen", "Seen"], [[["Seen"]]]) := by decide +kernel
  obtain ⟨d, hd, htypes⟩ := Option.map_eq_some_iff.mp hfull
  obtain ⟨d', hd', htypes'⟩ := Option.map_eq_some_iff.mp hthin
  obtain ⟨e, he, hthinned, hissues⟩ := only_annotations_are_missing (ok_of_toOption hd)
  obtain rfl : e = d' := Except.ok.inj (he.symm.trans (ok_of_toOption hd'))
  exact ⟨d, e, ok_of_toOption hd, he, hthinned, hissues, htypes, htypes'⟩

end Descriptor

end ClassAtlas
