-- What a codec writes it reads back, whatever follows. The law is told for one value at a
-- time, since a codec may leave out of a value what the rest of the value gives back.
import ClassAtlas.ArchiveCache.Codec
import ClassAtlas.Proofs.Text.Utf8

namespace ClassAtlas

namespace Codec

variable {α β : Type}

/-- A value is read back from its bytes, whatever follows them. -/
def ReadsBack (codec : Codec α) (value : α) : Prop :=
  ∀ rest, codec.decode (codec.encode value ++ rest) = some (value, rest)

theorem lawful_iff {codec : Codec α} : codec.Lawful ↔ ∀ value, codec.ReadsBack value := Iff.rfl

theorem ReadsBack.read? {codec : Codec α} {value : α} (h : codec.ReadsBack value) :
    codec.read? (codec.encode value) = some value := by
  have hend := h []
  rw [List.append_nil] at hend
  unfold Codec.read?
  rw [hend]

/-! ## Numbers -/

theorem decodeNat_encodeNat (n : Nat) (rest : Bytes) :
    decodeNat (encodeNat n ++ rest) = some (n, rest) := by
  induction n using Nat.strongRecOn with
  | ind n ih =>
    unfold encodeNat
    split
    · rename_i hsmall
      have hbyte : (UInt8.ofNat n).toNat = n := by
        rw [UInt8.toNat_ofNat']
        omega
      rw [List.singleton_append, decodeNat, hbyte, if_pos hsmall]
    · rename_i hbig
      have hbyte : (UInt8.ofNat (128 + n % 128)).toNat = 128 + n % 128 := by
        rw [UInt8.toNat_ofNat']
        omega
      have hdigits : 128 + n % 128 - 128 + 128 * (n / 128) = n := by omega
      rw [List.cons_append, decodeNat, hbyte, if_neg (by omega), ih (n / 128) (by omega),
        Option.map_some]
      simp only [hdigits]

theorem lawful_nat : nat.Lawful := decodeNat_encodeNat

theorem encodeNat_ne_nil (n : Nat) : encodeNat n ≠ [] := by
  unfold encodeNat
  split <;> simp

/-! ## Parts -/

theorem ReadsBack.through {codec : Codec α} {ofValue : β → α} {toValue? : α → Option β} {value : β}
    (h : codec.ReadsBack (ofValue value)) (hback : toValue? (ofValue value) = some value) :
    (codec.through ofValue toValue?).ReadsBack value := by
  intro rest
  simp [Codec.through, h rest, hback]

theorem ReadsBack.map {codec : Codec α} {ofValue : β → α} {toValue : α → β} {value : β}
    (h : codec.ReadsBack (ofValue value)) (hback : toValue (ofValue value) = value) :
    (codec.map ofValue toValue).ReadsBack value :=
  h.through (by rw [hback])

theorem ReadsBack.pair {first : Codec α} {second : Codec β} {value : α × β}
    (hfirst : first.ReadsBack value.1) (hsecond : second.ReadsBack value.2) :
    (first.pair second).ReadsBack value := by
  intro rest
  simp [Codec.pair, List.append_assoc, hfirst _, hsecond rest]

theorem decodeMany_flatMap {codec : Codec α} {values : List α}
    (h : ∀ value ∈ values, codec.ReadsBack value) (rest : Bytes) :
    codec.decodeMany values.length (values.flatMap codec.encode ++ rest) = some (values, rest) := by
  induction values with
  | nil => rfl
  | cons value values ih =>
    have hfirst := h value List.mem_cons_self
    have hothers := ih fun v hv => h v (List.mem_cons_of_mem _ hv)
    simp [decodeMany, List.append_assoc, hfirst _, hothers]

theorem ReadsBack.list {codec : Codec α} {values : List α}
    (h : ∀ value ∈ values, codec.ReadsBack value) : codec.list.ReadsBack values := by
  intro rest
  simp [Codec.list, List.append_assoc, decodeNat_encodeNat, decodeMany_flatMap h rest]

theorem lawful_bytes : bytes.Lawful := by
  intro value rest
  simp [bytes, List.append_assoc, decodeNat_encodeNat, cut?]

theorem readsBack_text (text : String) :
    (bytes.through (fun text : String => Utf8.encode text.toList)
      fun bytes => (Utf8.decode? bytes).map String.ofList).ReadsBack text :=
  (lawful_iff.mp lawful_bytes _).through (by simp [Utf8.decode?_encode])

end Codec

/-! ## Types that can be stored -/

/-- All values of a type are read back. -/
class LawfulStorable (α : Type) [Storable α] : Prop where
  readsBack : ∀ value : α, (Storable.codec : Codec α).ReadsBack value

namespace LawfulStorable

variable {α β : Type}

/-- Values that stand for values of a lawful type are read back if they can be told from them. -/
theorem of_via [Storable α] [LawfulStorable α] {ofValue : β → α} {toValue : α → β}
    (hback : ∀ value, toValue (ofValue value) = value) :
    @LawfulStorable β (Storable.via ofValue toValue) :=
  @LawfulStorable.mk β (Storable.via ofValue toValue) fun value =>
    (readsBack (ofValue value)).map (hback value)

instance : LawfulStorable Nat := ⟨Codec.lawful_iff.mp Codec.lawful_nat⟩
instance : LawfulStorable String := ⟨Codec.readsBack_text⟩
instance [Storable α] [Storable β] [LawfulStorable α] [LawfulStorable β] : LawfulStorable (α × β) :=
  ⟨fun value => (readsBack value.1).pair (readsBack value.2)⟩
instance [Storable α] [LawfulStorable α] : LawfulStorable (List α) :=
  ⟨fun _ => .list fun value _ => readsBack value⟩

end LawfulStorable

end ClassAtlas
