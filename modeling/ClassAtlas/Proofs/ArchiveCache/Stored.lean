-- What is stored of a scanned archive comes back. A parsed signature is left out of the bytes,
-- so a record comes back only if that is what its text parses to.
import ClassAtlas.ArchiveCache
import ClassAtlas.Proofs.ArchiveCache.Codec
import ClassAtlas.Proofs.Descriptor.Decoded

namespace ClassAtlas

open Storable (codec tagged untag encodeElement encodeNamed encodeElements decodeElement)

/-! ## Numbers and flags -/

theorem unzigzag_zigzag (i : Int) : unzigzag (zigzag i) = i := by
  cases i with
  | ofNat n =>
    have heven : 2 * n % 2 = 0 := by omega
    simp [zigzag, unzigzag, heven]
  | negSucc n =>
    have hodd : (2 * n + 1) % 2 ≠ 0 := by omega
    have hhalf : (2 * n + 1) / 2 = n := by omega
    rw [zigzag, unzigzag, if_neg hodd, hhalf]

namespace LawfulStorable

instance : LawfulStorable Int := of_via unzigzag_zigzag
instance : LawfulStorable Bool := of_via fun b => by cases b <;> rfl
instance : LawfulStorable Char := of_via Char.ofNat_toNat
instance : LawfulStorable UInt16 := of_via fun _ => UInt16.ofNat_toNat
instance : LawfulStorable UInt32 := of_via fun _ => UInt32.ofNat_toNat
instance : LawfulStorable UInt64 := of_via fun _ => UInt64.ofNat_toNat
instance : LawfulStorable Int8 := of_via Int8.ofInt_toInt
instance : LawfulStorable Int16 := of_via Int16.ofInt_toInt
instance : LawfulStorable Int32 := of_via Int32.ofInt_toInt
instance : LawfulStorable Int64 := of_via Int64.ofInt_toInt
instance : LawfulStorable AccessFlags := of_via fun _ => rfl
instance {α : Type} [Storable α] [LawfulStorable α] : LawfulStorable (Option α) :=
  of_via fun value => by cases value <;> rfl

end LawfulStorable

/-! ## Values -/

section

variable {α β : Type} [Storable α]

theorem decodeNat_tagged (tag : Nat) (value : α) (rest : Bytes) :
    Codec.decodeNat (tagged tag value ++ rest) = some (tag, codec.encode value ++ rest) := by
  unfold tagged
  rw [List.append_assoc, Codec.decodeNat_encodeNat]

theorem untag_encode [LawfulStorable α] (ofValue : α → β) (value : α) (rest : Bytes) :
    untag ofValue (codec.encode value ++ rest) = some (ofValue value, rest) := by
  unfold untag
  rw [LawfulStorable.readsBack value rest]
  rfl

end

instance : LawfulStorable ConstantValue where
  readsBack value rest := by
    show Storable.decodeConstant (Storable.encodeConstant value ++ rest) = some (value, rest)
    unfold Storable.decodeConstant
    cases value <;> simp [Storable.encodeConstant, decodeNat_tagged, untag_encode]

theorem length_tagged_pos {α : Type} [Storable α] (tag : Nat) (value : α) :
    0 < (tagged tag value).length := by
  have htag := List.length_pos_iff.mpr (Codec.encodeNat_ne_nil tag)
  unfold tagged
  rw [List.length_append]
  omega

theorem encodeElements_eq (values : List ElementValue) :
    encodeElements values = values.flatMap encodeElement := by
  induction values with
  | nil => rfl
  | cons value rest ih => rw [encodeElements, ih, List.flatMap_cons]

theorem encodeNamed_eq (decode : Bytes → Option (ElementValue × Bytes))
    (elements : List (String × ElementValue)) : encodeNamed elements =
      elements.flatMap ((codec : Codec String).pair ⟨encodeElement, decode⟩).encode := by
  induction elements with
  | nil => rfl
  | cons element rest ih =>
    rw [encodeNamed, ih, List.flatMap_cons]
    rfl

theorem length_le_flatMap {α : Type} (encode : α → Bytes) {values : List α} {value : α}
    (h : value ∈ values) : (encode value).length ≤ (values.flatMap encode).length := by
  obtain ⟨front, back, rfl⟩ := List.append_of_mem h
  simp only [List.flatMap_append, List.flatMap_cons, List.length_append]
  omega

/-- A value is read back with a level of fuel for each of its bytes: what lies inside it takes
fewer. -/
theorem readsBack_element (fuel : Nat) (value : ElementValue)
    (hfuel : (encodeElement value).length ≤ fuel) :
    Codec.ReadsBack ⟨encodeElement, decodeElement fuel⟩ value := by
  induction fuel generalizing value with
  | zero => cases value <;> simp [encodeElement, tagged, Codec.encodeNat_ne_nil] at hfuel
  | succ fuel ih =>
    intro rest
    show decodeElement (fuel + 1) (encodeElement value ++ rest) = _
    unfold decodeElement
    cases value with
    | nested typeName elements =>
      let named := (codec : Codec String).pair ⟨encodeElement, decodeElement fuel⟩
      have hbytes : encodeNamed elements = elements.flatMap named.encode := encodeNamed_eq _ _
      have htag := length_tagged_pos 11 (typeName, elements.length)
      have helements : ∀ element ∈ elements, named.ReadsBack element := by
        intro element helement
        have hle := length_le_flatMap named.encode helement
        have hpart : (named.encode element).length =
            ((codec : Codec String).encode element.1).length + (encodeElement element.2).length :=
          List.length_append
        rw [encodeElement, List.length_append, hbytes] at hfuel
        exact Codec.ReadsBack.pair (LawfulStorable.readsBack _) (ih element.2 (by omega))
      have hmany := Codec.decodeMany_flatMap helements rest
      rw [encodeElement, List.append_assoc, decodeNat_tagged, hbytes]
      simp [LawfulStorable.readsBack (typeName, elements.length) _, named, hmany]
    | array values =>
      have htag := length_tagged_pos 12 values.length
      have hvalues : ∀ v ∈ values, Codec.ReadsBack ⟨encodeElement, decodeElement fuel⟩ v := by
        intro v hv
        have hle := length_le_flatMap encodeElement hv
        rw [encodeElement, List.length_append, encodeElements_eq] at hfuel
        exact ih v (by omega)
      have hmany := Codec.decodeMany_flatMap hvalues rest
      have hsize : (codec : Codec Nat).encode values.length = Codec.encodeNat values.length := rfl
      rw [encodeElement, List.append_assoc, decodeNat_tagged, hsize, encodeElements_eq]
      simp [Codec.decodeNat_encodeNat, hmany]
    | _ => simp [encodeElement, decodeNat_tagged, untag_encode]

instance : LawfulStorable ElementValue where
  readsBack value rest := by
    show decodeElement (encodeElement value ++ rest).length (encodeElement value ++ rest) = _
    exact readsBack_element _ value (by simp) rest

instance : LawfulStorable AnnotationRecord := .of_via fun _ => rfl
instance : LawfulStorable InnerClass := .of_via fun _ => rfl
instance : LawfulStorable Stamp := .of_via fun _ => rfl

/-! ## Records -/

/-- The parsed signature of a field is what its text parses to. -/
def FieldRecord.Consistent (f : FieldRecord) : Prop :=
  f.parsedSignature = Storable.signatureOf ValueType.parse f.signature

/-- The parsed signature of a method is what its text parses to. -/
def MethodRecord.Consistent (m : MethodRecord) : Prop :=
  m.parsedSignature = Storable.signatureOf MethodSignature.parse m.signature

/-- All parsed signatures of a class are what their texts parse to. -/
structure ClassRecord.Consistent (r : ClassRecord) : Prop where
  signature : r.parsedSignature = Storable.signatureOf ClassSignature.parse r.signature
  fields : ∀ f ∈ r.fields, f.Consistent
  methods : ∀ m ∈ r.methods, m.Consistent

/-- What a descriptor says of a class can be stored. -/
theorem Descriptor.consistent_of_decode {options : DecodeOptions} {bytes : Bytes} {d : DecodedClass}
    (h : decode options bytes = .ok d) : d.record.Consistent := by
  have hnormal := (normal_of_decode options h).1
  exact ⟨hnormal.signature, fun f hf => (hnormal.fields f hf).signature,
    fun m hm => (hnormal.methods m hm).signature⟩

theorem FieldRecord.Consistent.readsBack {f : FieldRecord} (h : f.Consistent) :
    (codec : Codec FieldRecord).ReadsBack f := by
  refine (LawfulStorable.readsBack _).map ?_
  show { f with parsedSignature := Storable.signatureOf ValueType.parse f.signature } = f
  rw [← h]

theorem MethodRecord.Consistent.readsBack {m : MethodRecord} (h : m.Consistent) :
    (codec : Codec MethodRecord).ReadsBack m := by
  refine (LawfulStorable.readsBack _).map ?_
  show { m with parsedSignature := Storable.signatureOf MethodSignature.parse m.signature } = m
  rw [← h]

theorem ClassRecord.Consistent.readsBack {r : ClassRecord} (h : r.Consistent) :
    (codec : Codec ClassRecord).ReadsBack r := by
  have hback : { r with parsedSignature := Storable.signatureOf ClassSignature.parse r.signature } = r := by
    rw [← h.signature]
  refine Codec.ReadsBack.map ?_ hback
  refine (LawfulStorable.readsBack _).pair (Codec.ReadsBack.pair ?_ (LawfulStorable.readsBack _))
  refine (Codec.ReadsBack.list fun f hf => (h.fields f hf).readsBack).pair ?_
  refine (Codec.ReadsBack.list fun m hm => (h.methods m hm).readsBack).pair ?_
  exact LawfulStorable.readsBack _

/-! ## Cache files -/

/-- An archive whose classes are consistent comes back from the content of its cache file. -/
theorem CachedArchive.ofBytes?_toBytes {a : CachedArchive}
    (h : ∀ c ∈ a.classes, c.record.Consistent) : ofBytes? a.toBytes = some a := by
  have hclass : ∀ c ∈ a.classes, (codec : Codec CachedClass).ReadsBack c := by
    intro c hc
    refine Codec.ReadsBack.map ?_ rfl
    refine (LawfulStorable.readsBack _).pair ((LawfulStorable.readsBack _).pair ?_)
    exact (LawfulStorable.readsBack _).pair (h c hc).readsBack
  have harchive : (codec : Codec CachedArchive).ReadsBack a :=
    Codec.ReadsBack.map ((Codec.ReadsBack.list hclass).pair (LawfulStorable.readsBack _)) rfl
  unfold ofBytes? toBytes
  rw [List.take_left, if_pos rfl, List.drop_left]
  exact harchive.read?

end ClassAtlas
