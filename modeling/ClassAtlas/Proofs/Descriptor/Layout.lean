-- How a descriptor lies in its bytes: a header, the constant pool, the class and its members,
-- each with a table of attributes. Whatever is accepted lies so.
import Mathlib.Algebra.GroupWithZero.Nat
import ClassAtlas.Proofs.Descriptor.Delimited

namespace ClassAtlas

open BigEndian (word16 word32)

/-! ## The layout -/

namespace Descriptor

/-- A list with its number of items in front, which takes two bytes. -/
structure RawList (α : Type) where
  items : List α
  short : CountFits items

def RawList.bytes {α : Type} (render : α → Bytes) (l : RawList α) : Bytes :=
  count l.items.length ++ l.items.flatMap render

/-- An attribute: the number of its name in the pool, and its body. -/
structure RawAttribute where
  name : UInt16
  body : Bytes
  short : BodyFits body.length

def RawAttribute.bytes (a : RawAttribute) : Bytes :=
  word16 a.name ++ BigEndian.bytes 4 a.body.length ++ a.body

/-- A field or a method. Its name and its descriptor are numbers in the pool. -/
structure RawMember where
  access : UInt16
  name : UInt16
  descriptor : UInt16
  attributes : RawList RawAttribute

def RawMember.bytes (m : RawMember) : Bytes :=
  word16 m.access ++ (word16 m.name ++ (word16 m.descriptor ++ m.attributes.bytes RawAttribute.bytes))

/-- Bytes that are a constant pool, from the number of its entries to the last one. -/
structure RawPool where
  bytes : Bytes
  pool : ConstantPool
  reads : Decoder.Reads ConstantPool.decode bytes pool

/-- What stands before the members. Classes are numbers in the pool. -/
structure RawHead where
  minor : UInt16
  major : UInt16
  constants : RawPool
  access : UInt16
  name : UInt16
  superclass : UInt16
  interfaces : RawList UInt16

/-- A whole descriptor. -/
structure RawClass where
  head : RawHead
  fields : RawList RawMember
  methods : RawList RawMember
  attributes : RawList RawAttribute

namespace RawClass

def pool (c : RawClass) : ConstantPool := c.head.constants.pool

/-- The magic word and the version. -/
def headerBytes (c : RawClass) : Bytes :=
  word32 magic ++ (word16 c.head.minor ++ word16 c.head.major)

/-- What follows the pool. -/
def bodyBytes (c : RawClass) : Bytes :=
  word16 c.head.access ++ (word16 c.head.name ++ (word16 c.head.superclass ++
    (c.head.interfaces.bytes word16 ++ (c.fields.bytes RawMember.bytes ++
      (c.methods.bytes RawMember.bytes ++ c.attributes.bytes RawAttribute.bytes)))))

def bytes (c : RawClass) : Bytes := c.headerBytes ++ (c.head.constants.bytes ++ c.bodyBytes)

end RawClass

end Descriptor

/-! ## What a reader has taken -/

namespace Decoder

variable {α β : Type} {c c₁ c' : Cursor}

/-- The number in front of a list that fits is read as the length of the list. -/
theorem reads_count {items : List β} (h : CountFits items) :
    Reads u2 (Descriptor.count items.length) (UInt16.ofNat items.length) ∧
      (UInt16.ofNat items.length).toNat = items.length := by
  refine ⟨reads_word16 _, ?_⟩
  unfold CountFits at h
  rw [UInt16.toNat_ofNat']
  omega

/-- Whatever the reader accepts starts with the bytes of something. -/
def Shaped (reader : Decoder α) (render : β → Bytes) : Prop :=
  ∀ c a c', reader c = .ok a c' → ∃ x, c.rest = render x ++ c'.rest

theorem shaped_lookUp (look : UInt16 → Except DescriptorFault α) : Shaped (lookUp look) word16 := by
  intro c a c' hok
  obtain ⟨index, c₁, hindex, hlook⟩ := bind_eq_ok hok
  obtain ⟨-, rfl⟩ := ofExcept_eq_ok hlook
  exact ⟨index, u2_eq_ok hindex⟩

theorem Shaped.bind_pure {γ : Type} {reader : Decoder α} {put : α → γ} {render : β → Bytes}
    (h : Shaped reader render) : Shaped (reader >>= fun a => pure (put a)) render := by
  intro c a c' hok
  obtain ⟨b, c₁, hfirst, hpure⟩ := bind_eq_ok hok
  cases hpure
  exact h _ b _ hfirst

theorem Shaped.map {γ : Type} {reader : Decoder α} {put : α → γ} {render : β → Bytes}
    (h : Shaped reader render) : Shaped (put <$> reader) render := by
  rw [map_eq_pure_bind]
  exact h.bind_pure

theorem Shaped.times {reader : Decoder α} {render : β → Bytes} (h : Shaped reader render) (n : Nat)
    {items : List α} (hok : times n reader c = .ok items c') :
    ∃ shapes : List β, shapes.length = n ∧ c.rest = shapes.flatMap render ++ c'.rest := by
  induction n generalizing c items with
  | zero =>
    cases hok
    exact ⟨[], rfl, rfl⟩
  | succ n ih =>
    obtain ⟨a, c₁, hfirst, hrest⟩ := bind_eq_ok hok
    obtain ⟨rest, c₂, htimes, hpure⟩ := bind_eq_ok hrest
    cases hpure
    obtain ⟨x, hx⟩ := h _ _ _ hfirst
    obtain ⟨shapes, hlength, hshapes⟩ := ih htimes
    refine ⟨x :: shapes, by simp [hlength], ?_⟩
    rw [hx, hshapes, List.flatMap_cons, List.append_assoc]

/-- As many things as the word in front says. -/
theorem shaped_of_count {render : β → Bytes} {n : UInt16} {shapes : List β}
    (hcount : u2 c = .ok n c₁) (hlength : shapes.length = n.toNat)
    (hrest : c₁.rest = shapes.flatMap render ++ c'.rest) :
    ∃ l : Descriptor.RawList β, l.items = shapes ∧ c.rest = l.bytes render ++ c'.rest := by
  have hword : Descriptor.count shapes.length = word16 n := by
    rw [Descriptor.count, hlength, UInt16.ofNat_toNat]
  have hshort : CountFits shapes := by
    have hn := n.toNat_lt
    unfold CountFits
    omega
  refine ⟨⟨shapes, hshort⟩, rfl, ?_⟩
  rw [u2_eq_ok hcount, hrest, Descriptor.RawList.bytes, List.append_assoc]
  simp only [hword]

theorem Shaped.counted {reader : Decoder α} {render : β → Bytes} (h : Shaped reader render) :
    Shaped (counted reader) fun l : Descriptor.RawList β => l.bytes render := by
  intro c items c' hok
  obtain ⟨n, c₁, hcount, htimes⟩ := bind_eq_ok hok
  obtain ⟨shapes, hlength, hrest⟩ := h.times _ htimes
  obtain ⟨l, -, hl⟩ := shaped_of_count hcount hlength hrest
  exact ⟨l, hl⟩

end Decoder

/-! ## What is accepted -/

namespace Descriptor

open Decoder

variable (options : DecodeOptions) (pool : ConstantPool)

section

variable {σ μ : Type}

/-- What is known before and behind the attributes of a table, which are visited in order. -/
inductive Walks (visit : String → σ → Decoder σ) : List RawAttribute → σ → σ → Prop
  | nil (known : σ) : Walks visit [] known known
  | cons {a : RawAttribute} {name : String} {table : List RawAttribute} {known next final : σ} :
      pool.text a.name = .ok name → run (visit name known) a.body = .ok next →
      Walks visit table next final → Walks visit (a :: table) known final

variable {pool} {visit : String → σ → Decoder σ} {known final : σ} {c c' : Cursor}

theorem attributes_eq_ok {n : Nat} (hok : attributes pool visit n known c = .ok final c') :
    ∃ table : List RawAttribute, table.length = n ∧
      c.rest = table.flatMap RawAttribute.bytes ++ c'.rest ∧ Walks pool visit table known final := by
  induction n generalizing c known with
  | zero =>
    cases hok
    exact ⟨[], rfl, rfl, .nil _⟩
  | succ n ih =>
    obtain ⟨index, c₁, hindex, hok₁⟩ := bind_eq_ok hok
    obtain ⟨length, c₂, hlength, hok₂⟩ := bind_eq_ok hok₁
    obtain ⟨name, c₃, hname, hok₃⟩ := bind_eq_ok hok₂
    obtain ⟨body, c₄, hbody, hok₄⟩ := bind_eq_ok hok₃
    obtain ⟨next, c₅, hvisit, hothers⟩ := bind_eq_ok hok₄
    obtain ⟨htext, rfl⟩ := ofExcept_eq_ok hname
    obtain ⟨hrun, rfl⟩ := within_eq_ok hvisit
    obtain ⟨hsize, hcut⟩ := slice_eq_ok hbody
    obtain ⟨table, htable, hrest, hwalks⟩ := ih hothers
    have hshort : BodyFits body.length := hsize ▸ length.toNat_lt
    refine ⟨⟨index, body, hshort⟩ :: table, by simp [htable], ?_, .cons htext hrun hwalks⟩
    rw [u2_eq_ok hindex, u4_eq_ok hlength, hcut, hrest, List.flatMap_cons, RawAttribute.bytes]
    simp only [hsize, word32, List.append_assoc]

theorem attributeTable_eq_ok (hok : attributeTable pool visit known c = .ok final c') :
    ∃ l : RawList RawAttribute, c.rest = l.bytes RawAttribute.bytes ++ c'.rest ∧
      Walks pool visit l.items known final := by
  obtain ⟨n, c₁, hcount, hattributes⟩ := bind_eq_ok hok
  obtain ⟨table, hlength, hrest, hwalks⟩ := attributes_eq_ok hattributes
  obtain ⟨l, rfl, hl⟩ := shaped_of_count hcount hlength hrest
  exact ⟨l, hl, hwalks⟩

/-- What is accepted as a member is one, and it is known by its names and its attributes. -/
theorem member_eq_ok {bare : UInt16 → String → String → σ} {put : String → String → σ → μ} {a : μ}
    (hok : member pool visit bare put c = .ok a c') :
    ∃ (m : RawMember) (name descriptor : String) (known : σ), c.rest = m.bytes ++ c'.rest ∧
      pool.text m.name = .ok name ∧ pool.text m.descriptor = .ok descriptor ∧
      Walks pool visit m.attributes.items (bare m.access name descriptor) known ∧
      a = put name descriptor known := by
  obtain ⟨access, c₁, haccess, hok₁⟩ := bind_eq_ok hok
  obtain ⟨name, c₂, hname, hok₂⟩ := bind_eq_ok hok₁
  obtain ⟨descriptor, c₃, hdescriptor, hok₃⟩ := bind_eq_ok hok₂
  obtain ⟨known, c₄, htable, hpure⟩ := bind_eq_ok hok₃
  cases hpure
  obtain ⟨i, c₅, hi, hnameText⟩ := bind_eq_ok hname
  obtain ⟨j, c₆, hj, hdescriptorText⟩ := bind_eq_ok hdescriptor
  obtain ⟨hi', rfl⟩ := ofExcept_eq_ok hnameText
  obtain ⟨hj', rfl⟩ := ofExcept_eq_ok hdescriptorText
  obtain ⟨table, htable, hwalks⟩ := attributeTable_eq_ok htable
  refine ⟨⟨access, i, j, table⟩, name, descriptor, known, ?_, hi', hj', hwalks, rfl⟩
  rw [u2_eq_ok haccess, u2_eq_ok hi, u2_eq_ok hj, htable]
  simp only [RawMember.bytes, List.append_assoc]

theorem Walks.reads_attributes {table : List RawAttribute} (h : Walks pool visit table known final) :
    Reads (attributes pool visit table.length known) (table.flatMap RawAttribute.bytes) final := by
  induction h with
  | nil known => exact reads_pure known
  | @cons a name table known next final htext hrun _ ih =>
    exact reads_attributes_succ htext a.short hrun ih

theorem Walks.reads_attributeTable {l : RawList RawAttribute}
    (h : Walks pool visit l.items known final) :
    Reads (attributeTable pool visit known) (l.bytes RawAttribute.bytes) final := by
  obtain ⟨hcount, hlength⟩ := reads_count l.short
  refine hcount.bind ?_
  rw [hlength]
  exact h.reads_attributes

theorem Walks.reads_member {bare : UInt16 → String → String → σ} {put : String → String → σ → μ}
    {m : RawMember} {name descriptor : String} (hname : pool.text m.name = .ok name)
    (hdescriptor : pool.text m.descriptor = .ok descriptor)
    (h : Walks pool visit m.attributes.items (bare m.access name descriptor) known) :
    Reads (member pool visit bare put) m.bytes (put name descriptor known) :=
  (reads_word16 _).bind ((reads_lookUp hname).bind ((reads_lookUp hdescriptor).bind
    (h.reads_attributeTable.bind_pure _)))

end

theorem shaped_member {σ μ : Type} {visit : String → σ → Decoder σ}
    {bare : UInt16 → String → String → σ} {put : String → String → σ → μ} :
    Shaped (member pool visit bare put) RawMember.bytes := by
  intro c a c' hok
  obtain ⟨m, -, -, -, hrest, -⟩ := member_eq_ok hok
  exact ⟨m, hrest⟩

/-- The header says which version it is, behind the magic word. -/
theorem header_eq_ok {minor major : UInt16} {c c' : Cursor} (h : header c = .ok (minor, major) c') :
    c.rest = word32 magic ++ (word16 minor ++ word16 major) ++ c'.rest ∧ oldestMajor ≤ major := by
  obtain ⟨found, c₁, hfound, hok₁⟩ := bind_eq_ok h
  obtain ⟨hmagic, hok₂⟩ := refuse_eq_ok hok₁
  obtain ⟨minor', c₂, hminor, hok₃⟩ := bind_eq_ok hok₂
  obtain ⟨major', c₃, hmajor, hok₄⟩ := bind_eq_ok hok₃
  obtain ⟨hversion, hpure⟩ := refuse_eq_ok hok₄
  cases hpure
  rw [u4_eq_ok hfound, u2_eq_ok hminor, u2_eq_ok hmajor, not_not.mp hmagic]
  exact ⟨by simp only [List.append_assoc], UInt16.not_lt.mp hversion⟩

/-- Every descriptor that is accepted is laid out as a class, with anything behind it. -/
theorem exists_layout {bytes : Bytes} {d : DecodedClass} (h : decode options bytes = .ok d) :
    ∃ (raw : RawClass) (rest : Bytes), bytes = raw.bytes ++ rest := by
  obtain ⟨c, hok⟩ := run_eq_ok h
  obtain ⟨⟨minor, major⟩, c₁, hheader, hok₁⟩ := bind_eq_ok hok
  obtain ⟨pool, c₂, hpool, hok₂⟩ := bind_eq_ok hok₁
  obtain ⟨constants, hconstants, hspans⟩ := ConstantPool.delimited_decode _ _ _ _ hpool
  obtain ⟨access, c₃, haccess, hok₃⟩ := bind_eq_ok hok₂
  obtain ⟨name, c₄, hname, hok₄⟩ := bind_eq_ok hok₃
  obtain ⟨superclass, c₅, hsuper, hok₅⟩ := bind_eq_ok hok₄
  obtain ⟨interfaces, c₆, hinterfaces, hok₆⟩ := bind_eq_ok hok₅
  obtain ⟨fields, c₇, hfields, hok₇⟩ := bind_eq_ok hok₆
  obtain ⟨methods, c₈, hmethods, hok₈⟩ := bind_eq_ok hok₇
  obtain ⟨r, c₉, hattributes, hok₉⟩ := bind_eq_ok hok₈
  obtain ⟨names, c₁₀, -, -⟩ := bind_eq_ok hok₉
  obtain ⟨i, hi⟩ := (shaped_lookUp pool.className).map _ _ _ hname
  obtain ⟨j, hj⟩ := (shaped_lookUp _).bind_pure _ _ _ hsuper
  obtain ⟨rawInterfaces, hi'⟩ := ((shaped_lookUp pool.className).map).counted _ _ _ hinterfaces
  obtain ⟨rawFields, hf⟩ := (shaped_member pool).counted _ _ _ hfields
  obtain ⟨rawMethods, hm⟩ := (shaped_member pool).counted _ _ _ hmethods
  obtain ⟨rawAttributes, ha, -⟩ := attributeTable_eq_ok hattributes
  refine ⟨⟨⟨minor, major, ⟨constants, pool, hspans.reads⟩, access, i, j, rawInterfaces⟩, rawFields,
    rawMethods, rawAttributes⟩, c₉.rest, ?_⟩
  have hconstants' : c₁.rest = constants ++ c₂.rest := hconstants
  rw [u2_eq_ok haccess, hi, hj, hi', hf, hm, ha] at hconstants'
  have hbytes : bytes = _ := (header_eq_ok hheader).1
  rw [hbytes, hconstants']
  simp only [RawClass.bytes, RawClass.headerBytes, RawClass.bodyBytes, List.append_assoc]

end Descriptor

end ClassAtlas
