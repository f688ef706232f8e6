-- Plain UTF-8 read in two ways. Unit by unit every character that is one unit comes back, and
-- each of the four bytes of any other gives a replacement character. So both ways agree on
-- exactly the texts in which no character takes four bytes.
import ClassAtlas.Proofs.Text.Utf8

namespace ClassAtlas

/-- The bytes of some character that takes four of them stand in a byte string. -/
def Utf8.HasFourByteForm (bytes : Bytes) : Prop :=
  ∃ c : Char, (String.utf8EncodeChar c).length = 4 ∧ String.utf8EncodeChar c <:+: bytes

/-! ## Forms of four bytes -/

namespace Utf8

theorem length_utf8EncodeChar_eq_four (c : Char) :
    (String.utf8EncodeChar c).length = 4 ↔ 0x10000 ≤ c.toNat := by
  rcases utf8EncodeChar_cases c with ⟨_, a, hbytes, _⟩ | ⟨_, _, a, hbytes, _⟩ |
    ⟨_, _, a, hbytes, _⟩ | ⟨_, a, hbytes, _⟩
  all_goals
    rw [hbytes]
    simp
    omega

/-- Only the first byte of a form of four bytes is as large as that. -/
theorem exists_large_byte_iff (c : Char) :
    (∃ b ∈ String.utf8EncodeChar c, 0xF0 ≤ b.toNat) ↔ 0x10000 ≤ c.toNat := by
  rcases utf8EncodeChar_cases c with ⟨_, a, hbytes, _⟩ | ⟨_, _, a, hbytes, _⟩ |
    ⟨_, _, a, hbytes, _⟩ | ⟨_, a, hbytes, _⟩
  all_goals
    rw [hbytes]
    simp only [List.mem_cons, List.not_mem_nil, or_false, exists_eq_or_imp, exists_eq_left,
      toNat_trail]
    omega

/-- The bytes of a text hold a form of four bytes where a character of it is beyond the first
65536: the parts of other characters never make one up. -/
theorem hasFourByteForm_encode (text : List Char) :
    HasFourByteForm (encode text) ↔ ∃ c ∈ text, 0x10000 ≤ c.toNat := by
  constructor
  · rintro ⟨c, hlength, hpart⟩
    obtain ⟨b, hb, hlarge⟩ := (exists_large_byte_iff c).mpr
      ((length_utf8EncodeChar_eq_four c).mp hlength)
    obtain ⟨d, hd, hbyte⟩ := List.mem_flatMap.mp (hpart.subset hb)
    exact ⟨d, hd, (exists_large_byte_iff d).mp ⟨b, hbyte, hlarge⟩⟩
  · rintro ⟨c, hc, hlarge⟩
    obtain ⟨front, back, rfl⟩ := List.append_of_mem hc
    have hbytes : encode front ++ String.utf8EncodeChar c ++ encode back =
        encode (front ++ c :: back) := by
      simp [encode]
    exact ⟨c, (length_utf8EncodeChar_eq_four c).mpr hlarge, _, _, hbytes⟩

end Utf8

/-! ## What the slow way makes of a character -/

namespace ModifiedUtf8

open Utf8 (low trail)

/-- What is read unit by unit in the place of a character that was written in plain UTF-8. -/
def unitwise (c : Char) : List Char :=
  if c.toNat < 0x10000 then [c] else List.replicate 4 Utf8.replacement

/-- A byte that starts no unit is passed over alone. -/
theorem units_none {a : UInt8} (h : 0x80 ≤ a.toNat) (htwo : a.toNat / 0x20 ≠ 0x06)
    (hthree : a.toNat / 0x10 ≠ 0x0E) (rest : Bytes) : units (a :: rest) = 0xFFFD :: units rest := by
  rw [units.eq_def]
  simp only [show ¬a.toNat < 0x80 by omega, htwo, hthree, if_false]

theorem units_trail (n : Nat) (rest : Bytes) : units (trail n :: rest) = 0xFFFD :: units rest := by
  have htrail := Utf8.toNat_trail n
  exact units_none (by omega) (by omega) (by omega) rest

theorem units_utf8EncodeChar (c : Char) (rest : Bytes) :
    units (String.utf8EncodeChar c ++ rest) =
      (if c.toNat < 0x10000 then [UInt16.ofNat c.toNat] else List.replicate 4 0xFFFD) ++
        units rest := by
  have hrange := char_range c
  rcases Utf8.utf8EncodeChar_cases c with ⟨_, a, hbytes, hlead⟩ | ⟨_, _, a, hbytes, hlead⟩ |
    ⟨_, _, a, hbytes, hlead⟩ | ⟨_, a, hbytes, hlead⟩
  · rw [hbytes, if_pos (by omega), List.singleton_append, List.singleton_append,
      units_one (by omega), hlead]
  · rw [hbytes, if_pos (by omega), List.cons_append, List.singleton_append, List.singleton_append,
      units_two (by omega), hlead, Utf8.low_trail, bits_of_two (by omega)]
  · rw [hbytes, if_pos (by omega), List.cons_append, List.cons_append, List.singleton_append,
      List.singleton_append, units_three (by omega), hlead, Utf8.low_trail, Utf8.low_trail,
      bits_of_three (by omega)]
  · rw [hbytes, if_neg (by omega), List.cons_append, List.cons_append, List.cons_append,
      List.singleton_append, units_none (by omega) (by omega) (by omega), units_trail, units_trail,
      units_trail]
    rfl

/-- No character is a surrogate, and neither is `FFFD`, so every unit is read for itself. -/
theorem decodeUnits_utf8EncodeChar (c : Char) (rest : Bytes) :
    decodeUnits (String.utf8EncodeChar c ++ rest) = unitwise c ++ decodeUnits rest := by
  have hrange := char_range c
  unfold decodeUnits unitwise
  rw [units_utf8EncodeChar]
  by_cases hsmall : c.toNat < 0x10000
  · have hunit : (UInt16.ofNat c.toNat).toNat = c.toNat := by
      rw [UInt16.toNat_ofNat']
      omega
    rw [if_pos hsmall, if_pos hsmall, List.singleton_append,
      Utf16.decodeLossy_unit _ _ (by omega), hunit, Char.ofNat_toNat]
    rfl
  · have hbroken : ∀ us, Utf16.decodeLossy (0xFFFD :: us) =
        Utf8.replacement :: Utf16.decodeLossy us :=
      fun us => Utf16.decodeLossy_unit _ us (by decide)
    rw [if_neg hsmall, if_neg hsmall]
    simp only [List.replicate, List.cons_append, List.nil_append, hbroken]

theorem decodeUnits_utf8 (text : List Char) :
    decodeUnits (Utf8.encode text) = text.flatMap unitwise := by
  induction text with
  | nil => rfl
  | cons c text ih =>
    have hencode : Utf8.encode (c :: text) = String.utf8EncodeChar c ++ Utf8.encode text := rfl
    rw [hencode, decodeUnits_utf8EncodeChar, ih, List.flatMap_cons]

/-- The first character that is lost stands against a replacement character, which is a unit
of its own. -/
theorem flatMap_unitwise_eq_iff (text : List Char) :
    text.flatMap unitwise = text ↔ ∀ c ∈ text, c.toNat < 0x10000 := by
  induction text with
  | nil => simp
  | cons c text ih =>
    rw [List.flatMap_cons, List.forall_mem_cons, ← ih]
    by_cases hsmall : c.toNat < 0x10000
    · have hunit : unitwise c = [c] := if_pos hsmall
      simp [hunit, hsmall]
    · have hunit : unitwise c = List.replicate 4 Utf8.replacement := if_neg hsmall
      have hother : Utf8.replacement ≠ c := by
        intro hc
        rw [← hc] at hsmall
        exact hsmall (by decide)
      simp [hunit, hsmall, hother, List.replicate]

/-- A byte string that is well formed is read as its text. Unit by unit it gives the same text
if and only if it holds no form of four bytes: each character that is one unit comes back, and
any other gives four replacement characters. -/
theorem both_readings_agree_without_forms_of_four_bytes {bytes : Bytes} {text : List Char}
    (h : Utf8.decode? bytes = some text) :
    decode bytes = String.ofList text ∧
      decodeUnits bytes = text.flatMap unitwise ∧
      (decodeUnits bytes = text ↔ ¬Utf8.HasFourByteForm bytes) := by
  have hbytes : bytes = Utf8.encode text := Utf8.decode?_eq_some_iff.mp h
  have hunits : decodeUnits bytes = text.flatMap unitwise := by rw [hbytes, decodeUnits_utf8]
  refine ⟨by rw [decode, h, Option.getD_some], hunits, ?_⟩
  rw [hunits, flatMap_unitwise_eq_iff, hbytes, Utf8.hasFourByteForm_encode]
  simp

/-- An accent takes two bytes and comes back either way; a face takes four and does not. -/
theorem a_face_is_lost_unit_by_unit :
    Utf8.decode? [0xC3, 0xA9, 0xF0, 0x9F, 0x98, 0x80] = some ['é', '😀'] ∧
      decode [0xC3, 0xA9, 0xF0, 0x9F, 0x98, 0x80] = "é😀" ∧
      decodeUnits [0xC3, 0xA9, 0xF0, 0x9F, 0x98, 0x80] = 'é' :: List.replicate 4 '�' ∧
      (decodeUnits [0xC3, 0xA9, 0xF0, 0x9F, 0x98, 0x80] = ['é', '😀'] ↔
        ¬Utf8.HasFourByteForm [0xC3, 0xA9, 0xF0, 0x9F, 0x98, 0x80]) := by
  have hread : Utf8.decode? [0xC3, 0xA9, 0xF0, 0x9F, 0x98, 0x80] = some ['é', '😀'] := by decide
  obtain ⟨hplain, hunits, hagree⟩ := both_readings_agree_without_forms_of_four_bytes hread
  refine ⟨hread, hplain, ?_, hagree⟩
  rw [hunits]
  decide

end ModifiedUtf8

end ClassAtlas
