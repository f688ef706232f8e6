-- Tables of attributes. A reader takes a table one attribute at a time and changes what it
-- knows, so the parts of a table that were written one after the other are read as changes
-- one after the other.
import ClassAtlas.Proofs.Descriptor.Values

namespace ClassAtlas

open Decoder (Reads)
open BigEndian (word16)

/-! ## Reading a table -/

namespace Descriptor

variable {σ : Type}

/-- Visiting the attributes of a table in order leads from one state to another. -/
inductive Visits (visit : String → σ → Decoder σ) : List (String × Bytes) → σ → σ → Prop
  | nil (known : σ) : Visits visit [] known known
  | cons {name : String} {body : Bytes} {table : List (String × Bytes)} {known next final : σ} :
      Reads (visit name known) body next → Visits visit table next final →
      Visits visit ((name, body) :: table) known final

variable {visit : String → σ → Decoder σ}

theorem Visits.append {table more : List (String × Bytes)} {known next final : σ}
    (h : Visits visit table known next) (hmore : Visits visit more next final) :
    Visits visit (table ++ more) known final := by
  induction h with
  | nil => exact hmore
  | cons hbody _ ih => exact .cons hbody (ih hmore)

theorem Visits.single {name : String} {body : Bytes} {known final : σ}
    (h : Reads (visit name known) body final) : Visits visit [(name, body)] known final :=
  .cons h (.nil final)

/-- Whatever is known before, visiting the attributes of the table changes it by `put`. -/
def Applies (visit : String → σ → Decoder σ) (table : List (String × Bytes)) (put : σ → σ) : Prop :=
  ∀ known, Visits visit table known (put known)

theorem Applies.append {table more : List (String × Bytes)} {put put' : σ → σ}
    (h : Applies visit table put) (hmore : Applies visit more put') :
    Applies visit (table ++ more) (put' ∘ put) :=
  fun known => (h known).append (hmore (put known))

/-- At most `n` attributes, whose names and lengths can be written. -/
structure TableFits (n : Nat) (table : List (String × Bytes)) : Prop where
  count : table.length ≤ n
  each : ∀ e ∈ table, TextFits e.1 ∧ BodyFits e.2.length

theorem TableFits.append {m n : Nat} {table more : List (String × Bytes)} (h : TableFits m table)
    (hmore : TableFits n more) : TableFits (m + n) (table ++ more) where
  count := by
    rw [List.length_append]
    exact Nat.add_le_add h.count hmore.count
  each := List.forall_mem_append.mpr ⟨h.each, hmore.each⟩

/-- A body is cut off by the length that stands before it. -/
theorem reads_body {body : Bytes} (h : BodyFits body.length) :
    Reads (Decoder.slice (UInt32.ofNat body.length).toNat) body body := by
  have hlength : (UInt32.ofNat body.length).toNat = body.length := by
    unfold BodyFits at h
    rw [UInt32.toNat_ofNat']
    omega
  have hslice := Decoder.reads_slice body
  rwa [← hlength] at hslice

/-- One attribute is its name, the length of its body and the body, which is read on its own. -/
theorem reads_attributes_succ {pool : ConstantPool} {count : Nat} {index : UInt16} {name : String}
    {body back : Bytes} {known next final : σ} (hname : pool.text index = .ok name)
    (hbody : BodyFits body.length) (hvisit : Decoder.run (visit name known) body = .ok next)
    (hrest : Reads (attributes pool visit count next) back final) :
    Reads (attributes pool visit (count + 1) known)
      (word16 index ++ BigEndian.bytes 4 body.length ++ body ++ back) final := by
  rw [List.append_assoc, List.append_assoc]
  exact (Decoder.reads_word16 index).bind ((Decoder.reads_u4 _).bind
    ((Decoder.reads_ofExcept hname).bind ((reads_body hbody).bind
      ((Decoder.reads_within hvisit).bind hrest))))

end Descriptor

namespace PoolBuilder

open Descriptor (Visits Applies TableFits attributes attributeTable)

theorem yields_writeAttributes {n : Nat} {table : List (String × Bytes)}
    (hfits : TableFits n table) (hn : n ≤ 65535) :
    Yields (Descriptor.writeAttributes table) [] fun pool bytes =>
      ∀ {σ : Type} {visit : String → σ → Decoder σ} {known final : σ},
        Visits visit table known final →
          Reads (attributeTable pool visit known) bytes final := by
  have heach : Yields (Descriptor.writeEach Descriptor.writeAttribute table) [] fun pool bytes =>
      ∀ {σ : Type} {visit : String → σ → Decoder σ} {known final : σ},
        Visits visit table known final →
          Reads (attributes pool visit table.length known) bytes final := by
    have heach := hfits.each
    clear hfits
    induction table with
    | nil =>
      refine yields_pure fun pool => ?_
      intro σ visit known final hvisits
      cases hvisits
      exact Decoder.reads_pure known
    | cons e table ih =>
      obtain ⟨hname, hbody⟩ := heach e (by simp)
      have hattribute : Yields (Descriptor.writeAttribute e) [] fun pool bytes =>
          ∃ index, bytes = word16 index ++ BigEndian.bytes 4 e.2.length ++ e.2 ∧
            pool.text index = .ok e.1 :=
        ((yields_text hname).mono fun _ index htext => ⟨index, rfl, htext⟩).bind_pure
      refine hattribute.bind fun front => ?_
      refine ((ih fun d hd => heach d (by simp [hd])).mono fun pool back hback hfront => ?_).bind_pure
      obtain ⟨index, rfl, htext⟩ := hfront
      intro σ visit known final hvisits
      cases hvisits with
      | cons hvisit hrest =>
        exact Descriptor.reads_attributes_succ htext hbody hvisit.run (hback hrest)
  refine (heach.mono fun pool body hbody => ?_).bind_pure
  intro σ visit known final hvisits
  have hlength : (UInt16.ofNat table.length).toNat = table.length := by
    have hcount := hfits.count
    rw [UInt16.toNat_ofNat']
    omega
  refine (Decoder.reads_word16 _).bind ?_
  rw [hlength]
  exact hbody hvisits

/-! ## Writing a part of a table -/

variable {σ γ : Type}

/-- The writer gives at most one attribute, whose visit changes what is known by `put`. -/
structure PartOf (visit : ConstantPool → String → σ → Decoder σ) (put : σ → σ)
    (texts : List String) (part : Writer (List (String × Bytes))) : Prop where
  fits : ∀ p, TableFits 1 (part p).1
  yields : Yields part texts fun pool table => Applies (visit pool) table put

variable {visit : ConstantPool → String → σ → Decoder σ} {put : σ → σ} {texts more : List String}

theorem PartOf.bind {part : Writer (List (String × Bytes))}
    {next : List (String × Bytes) → Writer γ} {right : ConstantPool → γ → Prop}
    (hpart : PartOf visit put texts part)
    (hnext : ∀ table, TableFits 1 table → Yields (next table) more
      fun pool c => Applies (visit pool) table put → right pool c) :
    Yields (part >>= next) (texts ++ more) right := by
  intro p
  obtain ⟨hgrows, hvisits⟩ := hpart.yields p
  obtain ⟨hgrows', hright⟩ := hnext (part p).1 (hpart.fits p) (part p).2
  exact ⟨hgrows.trans hgrows', fun pool hheld =>
    hright pool hheld (hvisits pool (hgrows'.held hheld))⟩

/-- No attribute is written for what is not there. -/
theorem partOf_none (visit : ConstantPool → String → σ → Decoder σ) :
    PartOf visit id [] (pure []) where
  fits := fun _ => ⟨Nat.zero_le 1, fun _ he => absurd he List.not_mem_nil⟩
  yields := yields_pure fun _ known => .nil known

/-- An attribute whose body is read by `reader` and put into what is known. -/
theorem partOf_some {α : Type} {name : String} {body : Writer Bytes} {size : Nat}
    {reader : ConstantPool → Decoder α} {a : α} (put : α → σ → σ) (hname : TextFits name)
    (hsized : Sized body size) (hbody : BodyFits size)
    (hyields : Yields body texts fun pool bytes => Reads (reader pool) bytes a)
    (hvisit : ∀ pool known, visit pool name known = reader pool >>= fun a => pure (put a known)) :
    PartOf visit (put a) texts (body >>= fun bytes => pure [(name, bytes)]) where
  fits := by
    intro p
    refine ⟨Nat.le_refl 1, fun e he => ?_⟩
    have heq : e = (name, (body p).1) := List.mem_singleton.mp he
    subst heq
    exact ⟨hname, (hsized p).symm ▸ hbody⟩
  yields := by
    refine (hyields.mono fun pool bytes hread known => ?_).bind_pure
    apply Visits.single
    rw [hvisit]
    exact hread.bind_pure fun a => put a known

/-- A list that is written as an attribute unless it is empty. -/
theorem partOf_attributeIf {α : Type} {items : List α} {name : String} {body : Writer Bytes}
    {size : Nat} {reader : ConstantPool → Decoder (List α)}
    (put : List α → σ → σ) (hname : TextFits name) (hsized : Sized body size)
    (hbody : BodyFits size) (hnil : put [] = id) (htexts : items = [] → texts = [])
    (hyields : Yields body texts fun pool bytes => Reads (reader pool) bytes items)
    (hvisit : ∀ pool known, visit pool name known = reader pool >>= fun a => pure (put a known)) :
    PartOf visit (put items) texts (Descriptor.attributeIf (!items.isEmpty) name body) := by
  cases items with
  | nil =>
    rw [hnil, htexts rfl]
    exact partOf_none visit
  | cons a rest => exact partOf_some put hname hsized hbody hyields hvisit

/-! ## The parts that members and classes share -/

theorem partOf_signatureAttribute {signature : Option String} (put : Option String → σ → σ)
    (hfits : ∀ text ∈ signature, TextFits text) (hnone : put none = id)
    (hvisit : ∀ pool known, visit pool "Signature" known =
      Decoder.lookUp pool.text >>= fun text => pure (put (some text) known)) :
    PartOf visit (put signature) [] (Descriptor.signatureAttribute signature) := by
  cases signature with
  | none =>
    rw [hnone]
    exact partOf_none visit
  | some value =>
    have hbody : Yields (word16 <$> text value) [] fun pool bytes =>
        Reads (Decoder.lookUp pool.text) bytes value :=
      ((yields_text (hfits value rfl)).mono fun _ _ htext => Decoder.reads_lookUp htext).bind_pure
    exact partOf_some (fun text => put (some text)) (by decide) (sized_word16 _)
      (by decide) hbody hvisit

theorem partOf_annotationsAttribute {annotations : List AnnotationRecord}
    (put : List AnnotationRecord → σ → σ) (hfits : AnnotationsFit annotations)
    (hbody : BodyFits (annotationsSize annotations)) (hnil : put [] = id)
    (hvisit : ∀ pool known, visit pool "RuntimeVisibleAnnotations" known =
      AnnotationRecord.decodeList pool >>= fun more => pure (put more known)) :
    PartOf visit (put annotations) [] (Descriptor.annotationsAttribute annotations) :=
  partOf_attributeIf put (by decide) (sized_writeAnnotations annotations)
    hbody hnil (fun _ => rfl) (yields_writeAnnotations hfits) hvisit

end PoolBuilder

end ClassAtlas
