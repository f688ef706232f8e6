-- What of a descriptor is not read. The body of an attribute is cut off by its declared length
-- before it is looked at, so an attribute under a name that is not read makes no difference, and
-- neither do bytes behind those that are read of a body.
import Mathlib.Algebra.GroupWithZero.Nat
import Mathlib.Data.List.Forall2
import ClassAtlas.Proofs.Descriptor.Layout

namespace ClassAtlas

open BigEndian (word16 word32)

namespace Descriptor

/-! ## What may be added -/

/-- One table of attributes becomes another by new attributes under names that are not read,
anywhere in it, and by bytes behind the bodies of old ones. -/
inductive Padded (pool : ConstantPool) (read : List String) :
    List RawAttribute → List RawAttribute → Prop
  | nil : Padded pool read [] []
  | longer {a b : RawAttribute} {table table' : List RawAttribute} :
      a.name = b.name → a.body <+: b.body → Padded pool read table table' →
      Padded pool read (a :: table) (b :: table')
  | unread {a : RawAttribute} {name : String} {table table' : List RawAttribute} :
      pool.text a.name = .ok name → name ∉ read → Padded pool read table table' →
      Padded pool read table (a :: table')

/-- One member becomes another by additions to its table. -/
structure PaddedMember (pool : ConstantPool) (read : List String) (m m' : RawMember) : Prop where
  access : m.access = m'.access
  name : m.name = m'.name
  descriptor : m.descriptor = m'.descriptor
  attributes : Padded pool read m.attributes.items m'.attributes.items

/-- The names of the attributes of annotations that are read. -/
def annotationNames (options : DecodeOptions) : List String :=
  "RuntimeVisibleAnnotations" ::
    if options.invisibleAnnotations then ["RuntimeInvisibleAnnotations"] else []

/-- The names of the attributes of parameters' annotations that are read. -/
def parameterNames (options : DecodeOptions) : List String :=
  "RuntimeVisibleParameterAnnotations" ::
    if options.invisibleAnnotations then ["RuntimeInvisibleParameterAnnotations"] else []

/-- The names of the attributes of a field that are read. -/
def fieldNames (options : DecodeOptions) : List String :=
  "Signature" :: "ConstantValue" :: annotationNames options

/-- The names of the attributes of a method that are read. -/
def methodNames (options : DecodeOptions) : List String :=
  "Signature" :: "Exceptions" :: "AnnotationDefault" ::
    (annotationNames options ++ parameterNames options)

/-- The names of the attributes of a class that are read. -/
def classNames (options : DecodeOptions) : List String :=
  "Signature" :: "InnerClasses" :: annotationNames options

/-- One descriptor becomes another by additions to its tables. -/
structure PaddedClass (options : DecodeOptions) (c c' : RawClass) : Prop where
  head : c.head = c'.head
  fields : List.Forall₂ (PaddedMember c.pool (fieldNames options)) c.fields.items c'.fields.items
  methods : List.Forall₂ (PaddedMember c.pool (methodNames options)) c.methods.items
    c'.methods.items
  attributes : Padded c.pool (classNames options) c.attributes.items c'.attributes.items

end Descriptor

/-! ## One reader on two byte strings -/

namespace Decoder

variable {α β γ : Type}

/-- If the first reader accepts bytes that start with `bytes`, it takes just these, and the
second one takes `bytes'` with the same answer. -/
def Carries (reader reader' : Decoder α) (bytes bytes' : Bytes) : Prop :=
  ∀ position rest a c, reader ⟨position, bytes ++ rest⟩ = .ok a c →
    c = ⟨position + bytes.length, rest⟩ ∧ Reads reader' bytes' a

theorem Reads.carries {reader : Decoder α} {bytes : Bytes} {a : α} (h : Reads reader bytes a) :
    Carries reader reader bytes bytes := by
  intro position rest b c hok
  rw [h] at hok
  cases hok
  exact ⟨rfl, h⟩

theorem carries_ofExcept (answer : Except DescriptorFault α) :
    Carries (ofExcept answer) (ofExcept answer) [] [] := by
  cases answer with
  | ok a => exact (reads_pure a).carries
  | error fault =>
    rintro position rest a c ⟨⟩

theorem carries_within {reader : Decoder α} {body body' : Bytes}
    (h : ∀ a, run reader body = .ok a → run reader body' = .ok a) :
    Carries (within body reader) (within body' reader) [] [] := by
  intro position rest a c hok
  obtain ⟨hrun, rfl⟩ := within_eq_ok hok
  exact ⟨rfl, reads_within (h a hrun)⟩

theorem Carries.bind {reader reader' : Decoder α} {next next' : α → Decoder β}
    {front front' back back' : Bytes} (hfront : Carries reader reader' front front')
    (hback : ∀ a, Carries (next a) (next' a) back back') :
    Carries (reader >>= next) (reader' >>= next') (front ++ back) (front' ++ back') := by
  intro position rest b c hok
  rw [List.append_assoc] at hok
  obtain ⟨a, c₁, hfirst, hsecond⟩ := bind_eq_ok hok
  obtain ⟨rfl, hreads⟩ := hfront _ _ _ _ hfirst
  obtain ⟨rfl, hreads'⟩ := hback a _ _ _ _ hsecond
  rw [List.length_append, ← Nat.add_assoc]
  exact ⟨rfl, hreads.bind hreads'⟩

/-- What takes nothing more may follow. -/
theorem Carries.bind_nil {reader reader' : Decoder α} {bytes bytes' : Bytes} {next : α → Decoder β}
    (h : Carries reader reader' bytes bytes') (hnext : ∀ a, Carries (next a) (next a) [] []) :
    Carries (reader >>= next) (reader' >>= next) bytes bytes' := by
  have hboth := h.bind hnext
  rwa [List.append_nil, List.append_nil] at hboth

theorem Carries.bind_pure {reader reader' : Decoder α} {bytes bytes' : Bytes} {put : α → β}
    (h : Carries reader reader' bytes bytes') :
    Carries (reader >>= fun a => pure (put a)) (reader' >>= fun a => pure (put a)) bytes bytes' :=
  h.bind_nil fun a => (reads_pure (put a)).carries

theorem carries_refuse {p : Prop} [Decidable p] {fault : DescriptorFault} {next : Unit → Decoder α}
    {bytes bytes' : Bytes} (h : Carries (next ()) (next ()) bytes bytes') :
    Carries (if p then throw fault >>= next else next ())
      (if p then throw fault >>= next else next ()) bytes bytes' := by
  split
  · rintro position rest a c ⟨⟩
  · exact h

/-- Behind steps whose answers are known, such as two lengths. -/
theorem Carries.behind {reader : Decoder α} {reader' : Decoder β} {next : α → Decoder γ}
    {next' : β → Decoder γ} {front front' back back' : Bytes} {a : α} {b : β}
    (hreads : Reads reader front a) (hreads' : Reads reader' front' b)
    (h : Carries (next a) (next' b) back back') :
    Carries (reader >>= next) (reader' >>= next') (front ++ back) (front' ++ back') := by
  intro position rest x c hok
  rw [List.append_assoc, bind_of_ok (hreads _ _)] at hok
  obtain ⟨rfl, hback⟩ := h _ _ _ _ hok
  rw [List.length_append, ← Nat.add_assoc]
  exact ⟨rfl, hreads'.bind hback⟩

theorem carries_lookUp (look : UInt16 → Except DescriptorFault α) (index : UInt16) :
    Carries (lookUp look) (lookUp look) (word16 index) (word16 index) :=
  (reads_word16 index).carries.bind_nil fun _ => carries_ofExcept _

theorem Carries.times {reader : Decoder α} {render : β → Bytes} {items items' : List β}
    (h : List.Forall₂ (fun x y => Carries reader reader (render x) (render y)) items items') :
    Carries (times items.length reader) (times items'.length reader) (items.flatMap render)
      (items'.flatMap render) := by
  induction h with
  | nil => exact (reads_times_zero reader).carries
  | cons hfirst _ ih => exact hfirst.bind fun a => ih.bind_pure

theorem Carries.counted {reader : Decoder α} {render : β → Bytes} {l l' : Descriptor.RawList β}
    (h : List.Forall₂ (fun x y => Carries reader reader (render x) (render y)) l.items l'.items) :
    Carries (counted reader) (counted reader) (l.bytes render) (l'.bytes render) := by
  obtain ⟨hcount, hlength⟩ := reads_count l.short
  obtain ⟨hcount', hlength'⟩ := reads_count l'.short
  refine .behind hcount hcount' ?_
  rw [hlength, hlength']
  exact Carries.times h

end Decoder

/-! ## Bodies of attributes -/

open Decoder

namespace AnnotationRecord

variable {pool : ConstantPool}

theorem delimited_decodeWith {value : Decoder ElementValue} (h : Delimited value) :
    Delimited (decodeWith pool value) := by
  refine (delimited_lookUp pool.text).bind fun typeName => ?_
  refine (Delimited.counted ?_).bind fun elements => delimited_pure _
  exact (delimited_lookUp pool.text).bind fun name => h.bind fun v => delimited_pure _

theorem delimited_decodeTagged {item inner : Decoder ElementValue} (hitem : Delimited item)
    (hinner : Delimited inner) (tag : UInt8) : Delimited (decodeTagged pool item inner tag) := by
  unfold decodeTagged
  split
  case h_10 =>
    exact (delimited_lookUp _).bind fun _ => (delimited_lookUp _).bind fun _ => delimited_pure _
  case h_12 => exact (delimited_decodeWith hinner).bind fun a => delimited_pure _
  case h_13 => exact hitem.counted.bind fun values => delimited_pure _
  case h_14 => exact delimited_throw _
  all_goals exact (delimited_lookUp _).bind fun _ => delimited_pure _

/-- A value is read by the readers of the two levels below it. -/
theorem delimited_decodeValue (levels : Nat) : Delimited (decodeValue pool levels) := by
  induction levels using Nat.strongRecOn with
  | ind levels ih =>
    cases levels with
    | zero => exact delimited_throw _
    | succ levels =>
      rw [PoolBuilder.decodeValue_succ]
      refine delimited_u1.bind fun tag => delimited_decodeTagged (ih levels (by omega)) ?_ tag
      exact ih (levels - 1) (by omega)

theorem delimited_decodeList : Delimited (decodeList pool) :=
  (delimited_decodeWith (delimited_decodeValue maxNesting)).counted

theorem delimited_decodeParameters : Delimited (decodeParameters pool) :=
  delimited_u1.bind fun count => delimited_decodeList.times count.toNat

end AnnotationRecord

namespace Descriptor

variable {options : DecodeOptions} {pool : ConstantPool} {name : String}

open AnnotationRecord (delimited_decodeList delimited_decodeParameters delimited_decodeValue)

theorem delimited_fieldAttribute (f : FieldRecord) :
    Delimited (fieldAttribute options pool name f) := by
  unfold fieldAttribute
  split
  · exact (delimited_lookUp _).bind fun _ => delimited_pure _
  · exact (delimited_lookUp _).bind fun _ => delimited_pure _
  · exact delimited_decodeList.bind fun _ => delimited_pure _
  · split
    · exact delimited_decodeList.bind fun _ => delimited_pure _
    · exact delimited_pure f
  · exact delimited_pure f

theorem delimited_methodAttribute (m : MethodRecord) :
    Delimited (methodAttribute options pool name m) := by
  unfold methodAttribute
  split
  · exact (delimited_lookUp _).bind fun _ => delimited_pure _
  · exact (delimited_className pool).counted.bind fun _ => delimited_pure _
  · exact delimited_decodeList.bind fun _ => delimited_pure _
  · split
    · exact delimited_decodeList.bind fun _ => delimited_pure _
    · exact delimited_pure m
  · exact delimited_decodeParameters.bind fun _ => delimited_pure _
  · split
    · exact delimited_decodeParameters.bind fun _ => delimited_pure _
    · exact delimited_pure m
  · exact (delimited_decodeValue _).bind fun _ => delimited_pure _
  · exact delimited_pure m

theorem delimited_innerClass : Delimited (innerClass pool) := by
  refine (delimited_className pool).bind fun inner => ?_
  refine (delimited_optionalClassName pool).bind fun outer => ?_
  exact (delimited_lookUp _).bind fun simpleName => delimited_u2.bind fun access => delimited_pure _

theorem delimited_classAttribute (r : ClassRecord) :
    Delimited (classAttribute options pool name r) := by
  unfold classAttribute
  split
  · exact (delimited_lookUp _).bind fun _ => delimited_pure _
  · exact delimited_decodeList.bind fun _ => delimited_pure _
  · split
    · exact delimited_decodeList.bind fun _ => delimited_pure _
    · exact delimited_pure r
  · exact delimited_innerClass.counted.bind fun _ => delimited_pure _
  · exact delimited_pure r

theorem fieldAttribute_unread (h : name ∉ fieldNames options) (f : FieldRecord) :
    fieldAttribute options pool name f = pure f := by
  unfold fieldAttribute
  split <;> simp_all [fieldNames, annotationNames]

theorem methodAttribute_unread (h : name ∉ methodNames options) (m : MethodRecord) :
    methodAttribute options pool name m = pure m := by
  unfold methodAttribute
  split <;> simp_all [methodNames, annotationNames, parameterNames]

theorem classAttribute_unread (h : name ∉ classNames options) (r : ClassRecord) :
    classAttribute options pool name r = pure r := by
  unfold classAttribute
  split <;> simp_all [classNames, annotationNames]

/-! ## Additions are not seen -/

theorem run_of_prefix {α : Type} {reader : Decoder α} (h : Delimited reader) {body body' : Bytes}
    (hfront : body <+: body') {a : α} (hrun : run reader body = .ok a) :
    run reader body' = .ok a := by
  obtain ⟨c, hread⟩ := run_eq_ok hrun
  obtain ⟨used, rfl, hspans⟩ := h 0 body a c hread
  obtain ⟨more, rfl⟩ := hfront
  rw [List.append_assoc]
  exact run_of_ok (hspans.reads 0 (c.rest ++ more))

section

variable {σ : Type} {visit : String → σ → Decoder σ} {read : List String}
  (hdelimited : ∀ name known, Delimited (visit name known))
  (hunread : ∀ name, name ∉ read → ∀ known, visit name known = pure known)

include hdelimited hunread

theorem carries_attributes {table table' : List RawAttribute} (h : Padded pool read table table')
    (known : σ) :
    Carries (attributes pool visit table.length known) (attributes pool visit table'.length known)
      (table.flatMap RawAttribute.bytes) (table'.flatMap RawAttribute.bytes) := by
  induction h generalizing known with
  | nil => exact (reads_pure known).carries
  | @longer a b table table' hname hfront hrest ih =>
    simp only [List.flatMap_cons, List.length_cons, RawAttribute.bytes, List.append_assoc]
    rw [hname]
    refine .behind (reads_word16 _) (reads_word16 _) (.behind (reads_u4 _) (reads_u4 _) ?_)
    refine (carries_ofExcept _).bind fun name => ?_
    refine .behind (reads_body a.short) (reads_body b.short) ?_
    exact (carries_within fun next => run_of_prefix (hdelimited name known) hfront).bind ih
  | @unread a name table table' htext hname hrest ih =>
    intro position rest final c hok
    obtain ⟨hc, hreads⟩ := ih known position rest final c hok
    refine ⟨hc, ?_⟩
    have hvisit : run (visit name known) a.body = .ok known := by rw [hunread name hname]; rfl
    exact reads_attributes_succ htext a.short hvisit hreads

theorem carries_attributeTable {l l' : RawList RawAttribute}
    (h : Padded pool read l.items l'.items) (known : σ) :
    Carries (attributeTable pool visit known) (attributeTable pool visit known)
      (l.bytes RawAttribute.bytes) (l'.bytes RawAttribute.bytes) := by
  obtain ⟨hcount, hlength⟩ := reads_count l.short
  obtain ⟨hcount', hlength'⟩ := reads_count l'.short
  refine .behind hcount hcount' ?_
  rw [hlength, hlength']
  exact carries_attributes hdelimited hunread h known

theorem carries_member {μ : Type} {bare : UInt16 → String → String → σ}
    {put : String → String → σ → μ} {m m' : RawMember} (h : PaddedMember pool read m m') :
    Carries (member pool visit bare put) (member pool visit bare put) m.bytes m'.bytes := by
  unfold RawMember.bytes
  rw [h.access, h.name, h.descriptor]
  refine .behind (reads_word16 _) (reads_word16 _) ?_
  refine (carries_lookUp _ _).bind fun name => (carries_lookUp _ _).bind fun descriptor => ?_
  exact (carries_attributeTable hdelimited hunread h.attributes _).bind_pure

end

theorem carries_fields {l l' : RawList RawMember}
    (h : List.Forall₂ (PaddedMember pool (fieldNames options)) l.items l'.items) :
    Carries (counted (field options pool)) (counted (field options pool))
      (l.bytes RawMember.bytes) (l'.bytes RawMember.bytes) := by
  rw [field_eq_member]
  exact Carries.counted (h.imp fun m m' hm =>
    carries_member (fun _ _ => delimited_fieldAttribute _) (fun _ => fieldAttribute_unread) hm)

theorem carries_methods {l l' : RawList RawMember}
    (h : List.Forall₂ (PaddedMember pool (methodNames options)) l.items l'.items) :
    Carries (counted (method options pool)) (counted (method options pool))
      (l.bytes RawMember.bytes) (l'.bytes RawMember.bytes) := by
  rw [method_eq_member]
  exact Carries.counted (h.imp fun m m' hm =>
    carries_member (fun _ _ => delimited_methodAttribute _) (fun _ => methodAttribute_unread) hm)

theorem carries_className (index : UInt16) :
    Carries (className pool) (className pool) (word16 index) (word16 index) := by
  unfold className
  rw [map_eq_pure_bind]
  exact (carries_lookUp _ _).bind_pure

theorem carries_header (raw : RawClass) : Carries header header raw.headerBytes raw.headerBytes := by
  unfold RawClass.headerBytes
  rw [← List.append_nil (word16 raw.head.major)]
  refine .behind (reads_word32 magic) (reads_word32 magic) (carries_refuse ?_)
  refine .behind (reads_word16 _) (reads_word16 _) (.behind (reads_word16 _) (reads_word16 _) ?_)
  exact carries_refuse (reads_pure _).carries

theorem carries_decodeBody {raw raw' : RawClass} (h : PaddedClass options raw raw')
    (minor major : UInt16) :
    Carries (decodeBody options minor major raw.pool) (decodeBody options minor major raw.pool)
      raw.bodyBytes raw'.bodyBytes := by
  unfold RawClass.bodyBytes
  rw [← h.head]
  refine .behind (reads_word16 _) (reads_word16 _) ?_
  refine (carries_className _).bind fun name => ?_
  refine (carries_lookUp _ _).bind_pure.bind fun superclass => ?_
  refine (Carries.counted (List.forall₂_same.mpr fun _ _ => carries_className _)).bind
    fun interfaces => ?_
  refine (carries_fields h.fields).bind fun fields => (carries_methods h.methods).bind fun methods => ?_
  refine (carries_attributeTable (fun _ _ => delimited_classAttribute _)
    (fun _ => classAttribute_unread) h.attributes _).bind_nil fun r => ?_
  exact (carries_ofExcept _).bind fun names => (reads_pure _).carries

theorem carries_decodeClass {raw raw' : RawClass} (h : PaddedClass options raw raw') :
    Carries (decodeClass options) (decodeClass options) raw.bytes raw'.bytes := by
  unfold RawClass.bytes RawClass.headerBytes
  rw [← h.head]
  refine (carries_header raw).bind fun version => ?_
  exact .behind raw.head.constants.reads raw.head.constants.reads (carries_decodeBody h _ _)

/-- What is not read of a descriptor makes no difference. Whatever is accepted is laid out as a
class with something behind it; new attributes under names that are not read, anywhere in the
tables of the class, its fields and its methods, and bytes behind the bodies of old ones give a
descriptor of the same class with the same issues. -/
theorem what_is_not_read_makes_no_difference {bytes : Bytes} {d : DecodedClass}
    (h : decode options bytes = .ok d) :
    (∃ (raw : RawClass) (rest : Bytes), bytes = raw.bytes ++ rest) ∧
      ∀ (raw raw' : RawClass) (rest : Bytes), bytes = raw.bytes ++ rest →
        PaddedClass options raw raw' → decode options (raw'.bytes ++ rest) = .ok d := by
  refine ⟨exists_layout options h, fun raw raw' rest hbytes hpadded => ?_⟩
  subst hbytes
  obtain ⟨c, hread⟩ := run_eq_ok h
  obtain ⟨-, hreads⟩ := carries_decodeClass hpadded 0 rest d c hread
  exact run_of_ok (hreads 0 rest)

/-- The constants of a shed, and the name of an attribute that it does not have. -/
def shedConstants : List Constant :=
  [.text "Shed", .classRef 1, .text "door", .text "I", .text "ConstantValue", .integer 7,
    .text "Note"]

theorem shedConstants_fit : ∀ c ∈ shedConstants, c.Fits := by
  have htexts : ∀ text ∈ ["Shed", "door", "I", "ConstantValue", "Note"], TextFits text := by decide
  simpa [shedConstants, Constant.Fits] using htexts

/-- A class with one field, whose attributes and those of the class are given. -/
def shed (ofField ofClass : RawList RawAttribute) : RawClass where
  head := {
    minor := 0, major := 52, access := 0x0021, name := 2, superclass := 0
    constants := ⟨_, _, ConstantPool.reads_ofConstants shedConstants_fit (by decide)⟩
    interfaces := ⟨[], by decide⟩ }
  fields := ⟨[⟨0x0018, 3, 4, ofField⟩], by simp [CountFits]⟩
  methods := ⟨[], by decide⟩
  attributes := ofClass

/-- The number of the field's constant. -/
def plainDoor : RawList RawAttribute := ⟨[⟨5, [0, 6], by decide⟩], by decide⟩

/-- A note in front, and a byte behind the number. -/
def notedDoor : RawList RawAttribute := ⟨[⟨7, [0, 5], by decide⟩, ⟨5, [0, 6, 1], by decide⟩], by decide⟩

/-- A note that looks like the attribute of the field. -/
def notes : RawList RawAttribute := ⟨[⟨7, [0, 5, 0, 0, 0, 2, 0, 6], by decide⟩], by decide⟩

theorem notes_in_a_shed_make_no_difference :
    ∃ d, decode ⟨true⟩ (shed plainDoor ⟨[], by decide⟩).bytes = .ok d ∧
      PaddedClass ⟨true⟩ (shed plainDoor ⟨[], by decide⟩) (shed notedDoor notes) ∧
        decode ⟨true⟩ ((shed notedDoor notes).bytes ++ []) = .ok d := by
  have haccepted : (decode ⟨true⟩ (shed plainDoor ⟨[], by decide⟩).bytes).toOption.isSome = true := by
    decide +kernel
  have hname : (shed plainDoor ⟨[], by decide⟩).pool.text 7 = .ok "Note" := rfl
  have hpadded : PaddedClass ⟨true⟩ (shed plainDoor ⟨[], by decide⟩) (shed notedDoor notes) := {
    head := rfl
    fields := .cons ⟨rfl, rfl, rfl, .unread hname (by decide) (.longer rfl (by decide) .nil)⟩ .nil
    methods := .nil
    attributes := .unread hname (by decide) .nil }
  obtain ⟨d, hd⟩ := Option.isSome_iff_exists.mp haccepted
  have h := ok_of_toOption hd
  have hsame := (what_is_not_read_makes_no_difference h).2 _ _ [] (List.append_nil _).symm hpadded
  exact ⟨d, h, hpadded, hsame⟩

end Descriptor

end ClassAtlas
