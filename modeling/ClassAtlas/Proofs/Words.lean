-- Words of a fixed width. What is written with the most significant byte first is read
-- back as the same number, as far as the width holds it.
import Mathlib.Algebra.GroupWithZero.Nat
import ClassAtlas.Bytes

namespace ClassAtlas.BigEndian

@[simp]
theorem length_bytes (width n : Nat) : (bytes width n).length = width := by
  induction width generalizing n with
  | zero => rfl
  | succ width ih => simp [bytes, ih]

theorem value_append_byte (front : Bytes) (b : UInt8) :
    value (front ++ [b]) = value front * 256 + b.toNat := by
  simp [value, List.foldl_append]

/-- Only the last digits of a number are written, so only they come back. -/
theorem value_bytes (width n : Nat) : value (bytes width n) = n % 256 ^ width := by
  induction width generalizing n with
  | zero => simp [bytes, value, Nat.mod_one]
  | succ width ih =>
    rw [bytes, value_append_byte, ih, Nat.pow_succ, Nat.mul_comm (256 ^ width), Nat.mod_mul]
    simp only [UInt8.toNat_ofNat']
    omega

/-- A wide word is its high part and then its low part. -/
theorem bytes_add (high low n : Nat) :
    bytes (high + low) n = bytes high (n / 256 ^ low) ++ bytes low n := by
  induction low generalizing n with
  | zero => simp [bytes]
  | succ low ih =>
    rw [← Nat.add_assoc, bytes, ih, bytes, ← List.append_assoc, Nat.div_div_eq_div_mul,
      Nat.pow_succ, Nat.mul_comm 256]

/-- The bytes of a number with as many digits are all there is to say of them. -/
theorem bytes_value {width : Nat} {front : Bytes} (h : front.length = width) :
    bytes width (value front) = front := by
  induction width generalizing front with
  | zero => exact (List.length_eq_zero_iff.mp h).symm
  | succ width ih =>
    obtain ⟨init, last, rfl⟩ := List.eq_nil_or_concat front |>.resolve_left (by rintro rfl; cases h)
    have hinit : init.length = width := by simpa using h
    have hlast := last.toNat_lt
    have hhigh : (value init * 256 + last.toNat) / 256 = value init := by omega
    have hlow : UInt8.ofNat (value init * 256 + last.toNat) = last := by
      apply UInt8.toNat_inj.mp
      rw [UInt8.toNat_ofNat']
      omega
    rw [bytes, List.concat_eq_append, value_append_byte, hhigh, hlow, ih hinit]

/-- So many bytes spell no larger number. -/
theorem value_lt {width : Nat} {front : Bytes} (h : front.length = width) :
    value front < 256 ^ width := by
  rw [← bytes_value h, value_bytes]
  exact Nat.mod_lt _ (Nat.pow_pos (by decide))

section

variable {front : Bytes}

theorem toNat_value16 (h : front.length = 2) : (UInt16.ofNat (value front)).toNat = value front := by
  rw [UInt16.toNat_ofNat']
  exact Nat.mod_eq_of_lt (value_lt h)

theorem toNat_value32 (h : front.length = 4) : (UInt32.ofNat (value front)).toNat = value front := by
  rw [UInt32.toNat_ofNat']
  exact Nat.mod_eq_of_lt (value_lt h)

theorem toNat_value64 (h : front.length = 8) : (UInt64.ofNat (value front)).toNat = value front := by
  rw [UInt64.toNat_ofNat']
  exact Nat.mod_eq_of_lt (value_lt h)

theorem word16_value (h : front.length = 2) : word16 (UInt16.ofNat (value front)) = front := by
  rw [word16, toNat_value16 h, bytes_value h]

theorem word32_value (h : front.length = 4) : word32 (UInt32.ofNat (value front)) = front := by
  rw [word32, toNat_value32 h, bytes_value h]

theorem word64_value (h : front.length = 8) : word64 (UInt64.ofNat (value front)) = front := by
  rw [word64, toNat_value64 h, bytes_value h]

end

@[simp]
theorem length_word16 (n : UInt16) : (word16 n).length = 2 := length_bytes 2 _

end ClassAtlas.BigEndian
