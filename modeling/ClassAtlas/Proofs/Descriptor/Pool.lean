-- The constants of a descriptor and their numbers. A pool under construction gives each
-- constant the number that the reader of the finished pool finds it under.
import ClassAtlas.Proofs.Descriptor.Limits
import ClassAtlas.Proofs.Descriptor.Reading
import ClassAtlas.Proofs.Text.ModifiedUtf8

namespace ClassAtlas

/-! ## One constant -/

namespace Constant

open Decoder (Reads)

theorem reads_encode {c : Constant} (h : c.Fits) (index : UInt16) :
    Reads (decode index) c.encode c := by
  cases c with
  | unusable => exact h.elim
  | text value =>
    have hlength : (UInt16.ofNat (ModifiedUtf8.encode value).length).toNat =
        (ModifiedUtf8.encode value).length := by
      rw [UInt16.toNat_ofNat']
      unfold Fits TextFits at h
      omega
    refine (Decoder.reads_u1 1).bind ((Decoder.reads_u2 _).bind ?_)
    rw [hlength]
    have hbody := (Decoder.reads_slice (ModifiedUtf8.encode value)).bind_pure fun bytes =>
      text (ModifiedUtf8.decode bytes)
    rwa [ModifiedUtf8.decode_encode] at hbody
  | integer value =>
    have hword := (Decoder.reads_word32 value.toUInt32).bind_pure fun w => integer w.toInt32
    exact (Decoder.reads_u1 3).bind hword
  | float bits => exact (Decoder.reads_u1 4).bind ((Decoder.reads_word32 bits).bind_pure float)
  | long value =>
    have hword := (Decoder.reads_word64 value.toUInt64).bind_pure fun w => long w.toInt64
    exact (Decoder.reads_u1 5).bind hword
  | double bits => exact (Decoder.reads_u1 6).bind ((Decoder.reads_word64 bits).bind_pure double)
  | classRef name => exact (Decoder.reads_u1 7).bind ((Decoder.reads_word16 name).bind_pure classRef)
  | string content => exact (Decoder.reads_u1 8).bind ((Decoder.reads_word16 content).bind_pure string)
  | fieldRef owner member | methodRef owner member | interfaceMethodRef owner member
  | nameAndType owner member | dynamic owner member | invokeDynamic owner member =>
    exact (Decoder.reads_u1 _).bind
      ((Decoder.reads_word16 owner).bind ((Decoder.reads_word16 member).bind_pure _))
  | methodHandle kind reference =>
    exact (Decoder.reads_u1 15).bind
      ((Decoder.reads_u1 kind).bind ((Decoder.reads_word16 reference).bind_pure _))
  | methodType name | moduleRef name | packageRef name =>
    exact (Decoder.reads_u1 _).bind ((Decoder.reads_word16 name).bind_pure _)

/-- The entries that a constant takes in a pool: a wide one has nothing behind it. -/
def spread (c : Constant) : List Constant := if c.isWide then [c, unusable] else [c]

theorem length_spread (c : Constant) : c.spread.length = c.slots := by
  unfold spread slots
  split <;> rfl

theorem slots_pos (c : Constant) : 0 < c.slots := by
  unfold slots
  split <;> omega

end Constant

/-! ## A list of constants -/

@[simp]
theorem slotsOf_nil : slotsOf [] = 0 := rfl

@[simp]
theorem slotsOf_cons (c : Constant) (rest : List Constant) :
    slotsOf (c :: rest) = c.slots + slotsOf rest := by
  simp [slotsOf]

@[simp]
theorem slotsOf_append (front back : List Constant) :
    slotsOf (front ++ back) = slotsOf front + slotsOf back := by
  simp [slotsOf]

namespace ConstantPool

open Decoder (Reads)

/-- The pool of some constants. -/
def ofConstants (constants : List Constant) : ConstantPool :=
  ⟨(Constant.unusable :: constants.flatMap Constant.spread).toArray⟩

theorem reads_decodeEntries {constants : List Constant} (h : ∀ c ∈ constants, c.Fits)
    (entries : Array Constant) :
    Reads (decodeEntries (slotsOf constants) entries) (constants.flatMap Constant.encode)
      (entries ++ (constants.flatMap Constant.spread).toArray) := by
  induction constants generalizing entries with
  | nil => simpa [decodeEntries] using Decoder.reads_pure entries
  | cons c rest ih =>
    have hc := Constant.reads_encode (h c (by simp)) (UInt16.ofNat entries.size)
    have hrest := ih fun d hd => h d (by simp [hd])
    rw [List.flatMap_cons, List.flatMap_cons, slotsOf_cons]
    cases hwide : c.isWide with
    | true =>
      have hslots : c.slots + slotsOf rest = slotsOf rest + 1 + 1 := by
        simp only [Constant.slots, hwide, if_true]
        omega
      have hentries : entries ++ (c.spread ++ rest.flatMap Constant.spread).toArray =
          (entries.push c).push .unusable ++ (rest.flatMap Constant.spread).toArray := by
        apply Array.toList_inj.mp
        simp [Constant.spread, hwide]
      rw [hslots, hentries, decodeEntries]
      refine hc.bind ?_
      simp only [hwide, if_true]
      exact hrest _
    | false =>
      have hslots : c.slots + slotsOf rest = slotsOf rest + 1 := by
        simp only [Constant.slots, hwide, Bool.false_eq_true, if_false]
        omega
      have hentries : entries ++ (c.spread ++ rest.flatMap Constant.spread).toArray =
          entries.push c ++ (rest.flatMap Constant.spread).toArray := by
        apply Array.toList_inj.mp
        simp [Constant.spread, hwide]
      rw [hslots, hentries, decodeEntries]
      refine hc.bind ?_
      simp only [hwide, Bool.false_eq_true, if_false]
      exact hrest _

/-- The constants of a pool come back from their bytes, behind the number of all entries. -/
theorem reads_ofConstants {constants : List Constant} (h : ∀ c ∈ constants, c.Fits)
    (hslots : slotsOf constants ≤ 65534) :
    Reads decode (BigEndian.word16 (UInt16.ofNat (1 + slotsOf constants)) ++
      constants.flatMap Constant.encode) (ofConstants constants) := by
  have htodo : (UInt16.ofNat (1 + slotsOf constants)).toNat - 1 = slotsOf constants := by
    rw [UInt16.toNat_ofNat']
    omega
  refine (Decoder.reads_word16 _).bind ?_
  simp only [htodo]
  have hentries := (reads_decodeEntries h #[.unusable]).bind_pure ConstantPool.mk
  simpa [ofConstants] using hentries

end ConstantPool

/-! ## The numbers of constants -/

/-- Some constants with their numbers, the first one being `first`. -/
def numbered : Nat → List Constant → List (Constant × UInt16)
  | _, [] => []
  | first, c :: rest => (c, UInt16.ofNat first) :: numbered (first + c.slots) rest

theorem numbered_append (first : Nat) (front back : List Constant) :
    numbered first (front ++ back) = numbered first front ++ numbered (first + slotsOf front) back := by
  induction front generalizing first with
  | nil => rfl
  | cons c front ih => simp [numbered, ih, Nat.add_assoc]

/-- A constant is found under its number, as long as the numbers do not run out. -/
theorem getElem?_spread {constants : List Constant} {c : Constant} {i : UInt16}
    (front : List Constant) (hmem : (c, i) ∈ numbered front.length constants)
    (hlast : front.length + slotsOf constants ≤ 65535) :
    front.length ≤ i.toNat ∧ (front ++ constants.flatMap Constant.spread)[i.toNat]? = some c := by
  induction constants generalizing front with
  | nil => simp [numbered] at hmem
  | cons d rest ih =>
    rw [slotsOf_cons] at hlast
    have hpos := d.slots_pos
    rcases List.mem_cons.mp hmem with heq | hmem
    · obtain ⟨rfl, rfl⟩ := Prod.mk.inj heq
      have hi : (UInt16.ofNat front.length).toNat = front.length := by
        rw [UInt16.toNat_ofNat']
        omega
      rw [hi]
      refine ⟨Nat.le_refl _, ?_⟩
      rw [List.getElem?_append_right (Nat.le_refl _), Nat.sub_self, List.flatMap_cons]
      unfold Constant.spread
      split <;> rfl
    · have hlength : (front ++ d.spread).length = front.length + d.slots := by
        rw [List.length_append, d.length_spread]
      rw [← hlength] at hmem
      obtain ⟨hle, hget⟩ := ih (front ++ d.spread) hmem (by omega)
      refine ⟨by omega, ?_⟩
      rwa [List.flatMap_cons, ← List.append_assoc]

theorem ConstantPool.get_ofConstants {constants : List Constant} {c : Constant} {i : UInt16}
    (hmem : (c, i) ∈ numbered 1 constants) (hslots : slotsOf constants ≤ 65534) :
    (ConstantPool.ofConstants constants).get i = .ok c := by
  obtain ⟨hpos, hget⟩ := getElem?_spread [.unusable] hmem (by simp; omega)
  have hi : i ≠ 0 := by
    rintro rfl
    simp at hpos
  simp only [List.singleton_append] at hget
  simp [ConstantPool.get, ConstantPool.ofConstants, hi, hget]

end ClassAtlas
