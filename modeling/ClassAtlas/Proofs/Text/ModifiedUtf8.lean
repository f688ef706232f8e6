-- Reading back the text form of a descriptor. Every text comes back from its bytes, whether
-- they pass for plain UTF-8 or are read unit by unit.
import ClassAtlas.Text.ModifiedUtf8

namespace ClassAtlas

/-- The numbers of the surrogates are no characters, and there is a last character. -/
theorem char_range (c : Char) :
    c.toNat < 0xD800 ∨ (0xDFFF < c.toNat ∧ c.toNat < 0x110000) := c.valid

/-! ## UTF-16 -/

namespace Utf16

theorem isHigh_iff (u : UInt16) : isHigh u = true ↔ 0xD800 ≤ u.toNat ∧ u.toNat ≤ 0xDBFF := by
  simp [isHigh, UInt16.le_iff_toNat_le]

theorem isLow_iff (u : UInt16) : isLow u = true ↔ 0xDC00 ≤ u.toNat ∧ u.toNat ≤ 0xDFFF := by
  simp [isLow, UInt16.le_iff_toNat_le]

/-- A unit that is no surrogate is a character by itself, whatever follows. -/
theorem decodeLossy_unit (u : UInt16) (rest : List UInt16)
    (h : u.toNat < 0xD800 ∨ 0xDFFF < u.toNat) :
    decodeLossy (u :: rest) = Char.ofNat u.toNat :: decodeLossy rest := by
  have hhigh : isHigh u = false := by
    rw [Bool.eq_false_iff, Ne, isHigh_iff]
    omega
  have hlow : isLow u = false := by
    rw [Bool.eq_false_iff, Ne, isLow_iff]
    omega
  cases rest with
  | nil => simp [decodeLossy, charOfUnit, hhigh, hlow]
  | cons v rest => simp [decodeLossy, charOfUnit, hhigh, hlow]

theorem decodeLossy_pair {u v : UInt16} (hu : isHigh u = true) (hv : isLow v = true)
    (rest : List UInt16) : decodeLossy (u :: v :: rest) = charOfPair u v :: decodeLossy rest := by
  simp [decodeLossy, hu, hv]

theorem decodeLossy_unitsOfChar (c : Char) (rest : List UInt16) :
    decodeLossy (unitsOfChar c ++ rest) = c :: decodeLossy rest := by
  have hrange := char_range c
  unfold unitsOfChar
  by_cases hsmall : c.toNat < 0x10000
  · have hunit : (UInt16.ofNat c.toNat).toNat = c.toNat := by
      rw [UInt16.toNat_ofNat']
      omega
    simp only [hsmall, if_true, List.singleton_append]
    rw [decodeLossy_unit _ _ (by omega), hunit, Char.ofNat_toNat]
  · have hhigh : (UInt16.ofNat (0xD800 + (c.toNat - 0x10000) / 0x400)).toNat =
        0xD800 + (c.toNat - 0x10000) / 0x400 := by
      rw [UInt16.toNat_ofNat']
      omega
    have hlow : (UInt16.ofNat (0xDC00 + (c.toNat - 0x10000) % 0x400)).toNat =
        0xDC00 + (c.toNat - 0x10000) % 0x400 := by
      rw [UInt16.toNat_ofNat']
      omega
    simp only [hsmall, if_false, List.cons_append, List.nil_append]
    rw [decodeLossy_pair (by rw [isHigh_iff]; omega) (by rw [isLow_iff]; omega)]
    have hpair : 0x10000 + (c.toNat - 0x10000) / 0x400 * 0x400 + (c.toNat - 0x10000) % 0x400 =
        c.toNat := by omega
    simp only [charOfPair, hhigh, hlow, Nat.add_sub_cancel_left, hpair, Char.ofNat_toNat]

theorem decodeLossy_encode (text : List Char) : decodeLossy (encode text) = text := by
  induction text with
  | nil => rfl
  | cons c text ih =>
    simp only [encode, List.flatMap_cons] at ih ⊢
    rw [decodeLossy_unitsOfChar, ih]

end Utf16

/-! ## Bytes of a character -/

namespace Utf8

theorem toNat_trail (n : Nat) : (trail n).toNat = 0x80 + n % 0x40 := by
  simp only [trail, UInt8.toNat_ofNat']
  omega

theorem low_trail (n : Nat) : low (trail n) = n % 0x40 := by
  simp only [low, toNat_trail]
  omega

theorem isTrail_iff (b : UInt8) : isTrail b = true ↔ 0x80 ≤ b.toNat ∧ b.toNat ≤ 0xBF := by
  simp [isTrail, UInt8.le_iff_toNat_le]

theorem isTrail_trail (n : Nat) : isTrail (trail n) = true := by
  rw [isTrail_iff, toNat_trail]
  omega

theorem fitsThree_iff (a b : UInt8) : fitsThree a b = true ↔
    (if a.toNat = 0xE0 then 0xA0 else 0x80) ≤ b.toNat ∧
      b.toNat ≤ (if a.toNat = 0xED then 0x9F else 0xBF) := by
  have hE0 : a = 0xE0 ↔ a.toNat = 0xE0 := UInt8.toNat_inj.symm
  have hED : a = 0xED ↔ a.toNat = 0xED := UInt8.toNat_inj.symm
  unfold fitsThree
  simp only [hE0, hED]
  by_cases h1 : a.toNat = 0xE0
  · simp [h1, UInt8.le_iff_toNat_le]
  · by_cases h2 : a.toNat = 0xED
    · simp [h2, UInt8.le_iff_toNat_le]
    · simp [h1, h2, isTrail_iff]

theorem head_one {a : UInt8} (h : a.toNat < 0x80) (rest : Bytes) :
    head a rest = .char (Char.ofNat a.toNat) 1 := by
  have ha : a < 0x80 := UInt8.lt_iff_toNat_lt.mpr h
  simp [head, ha]

theorem head_two {a b : UInt8} (h : 0xC2 ≤ a.toNat ∧ a.toNat ≤ 0xDF) (hb : isTrail b = true)
    (rest : Bytes) :
    head a (b :: rest) = .char (Char.ofNat (a.toNat % 0x20 * 0x40 + low b)) 2 := by
  have h1 : ¬a < 0x80 := by rw [UInt8.lt_iff_toNat_lt]; simp; omega
  have h2 : (0xC2 ≤ a && a ≤ 0xDF) = true := by simp [UInt8.le_iff_toNat_le]; omega
  simp [head, h1, h2, hb]

theorem head_three {a b : UInt8} (h : 0xE0 ≤ a.toNat ∧ a.toNat ≤ 0xEF) (c : UInt8) (rest : Bytes) :
    head a (b :: c :: rest) =
      if fitsThree a b then
        if isTrail c then .char (Char.ofNat (a.toNat % 0x10 * 0x1000 + low b * 0x40 + low c)) 3
        else .broken 2
      else .broken 1 := by
  have h1 : ¬a < 0x80 := by rw [UInt8.lt_iff_toNat_lt]; simp; omega
  have h2 : (0xC2 ≤ a && a ≤ 0xDF) = false := by simp [UInt8.le_iff_toNat_le]; omega
  have h3 : (0xE0 ≤ a && a ≤ 0xEF) = true := by simp [UInt8.le_iff_toNat_le]; omega
  simp only [head, h1, h2, h3, if_true, if_false, Bool.false_eq_true]

end Utf8

namespace ModifiedUtf8

open Utf8 (trail low)

/-! ## Unit by unit -/

theorem units_one {a : UInt8} (h : a.toNat < 0x80) (rest : Bytes) :
    units (a :: rest) = UInt16.ofNat a.toNat :: units rest := by
  rw [units.eq_def]
  simp only [h, if_true]

theorem units_two {a : UInt8} (h : a.toNat / 0x20 = 0x06) (b : UInt8) (rest : Bytes) :
    units (a :: b :: rest) = UInt16.ofNat (a.toNat % 0x20 * 0x40 + low b) :: units rest := by
  rw [units.eq_def]
  simp only [h, show ¬a.toNat < 0x80 by omega, if_true, if_false]

theorem units_three {a : UInt8} (h : a.toNat / 0x10 = 0x0E) (b c : UInt8) (rest : Bytes) :
    units (a :: b :: c :: rest) =
      UInt16.ofNat (a.toNat % 0x10 * 0x1000 + low b * 0x40 + low c) :: units rest := by
  rw [units.eq_def]
  simp only [h, show ¬a.toNat < 0x80 by omega, show ¬a.toNat / 0x20 = 0x06 by omega, if_true,
    if_false]

/-- A unit takes one, two or three bytes, and zero takes two. -/
theorem encodeUnit_cases (u : UInt16) :
    (0 < u.toNat ∧ u.toNat < 0x80 ∧ ∃ a, encodeUnit u = [a] ∧ a.toNat = u.toNat) ∨
    ((u.toNat = 0 ∨ 0x80 ≤ u.toNat) ∧ u.toNat < 0x800 ∧
      ∃ a, encodeUnit u = [a, trail u.toNat] ∧ a.toNat = 0xC0 + u.toNat / 0x40) ∨
    (0x800 ≤ u.toNat ∧
      ∃ a, encodeUnit u = [a, trail (u.toNat / 0x40), trail u.toNat] ∧
        a.toNat = 0xE0 + u.toNat / 0x1000) := by
  have hlt := u.toNat_lt
  unfold encodeUnit
  simp only [Bool.and_eq_true, decide_eq_true_eq]
  split
  · refine Or.inl ⟨by omega, by omega, _, rfl, ?_⟩
    rw [UInt8.toNat_ofNat']
    omega
  · split
    · refine Or.inr (Or.inl ⟨by omega, by omega, _, rfl, ?_⟩)
      rw [UInt8.toNat_ofNat']
      omega
    · refine Or.inr (Or.inr ⟨by omega, _, rfl, ?_⟩)
      rw [UInt8.toNat_ofNat']
      omega

/-- What is split over two bytes comes together again. -/
theorem bits_of_two {n : Nat} (h : n < 0x800) :
    (0xC0 + n / 0x40) % 0x20 * 0x40 + n % 0x40 = n := by omega

/-- What is split over three bytes comes together again. -/
theorem bits_of_three {n : Nat} (h : n < 0x10000) :
    (0xE0 + n / 0x1000) % 0x10 * 0x1000 + n / 0x40 % 0x40 * 0x40 + n % 0x40 = n := by omega

theorem units_encodeUnit (u : UInt16) (rest : Bytes) :
    units (encodeUnit u ++ rest) = u :: units rest := by
  have hlt := u.toNat_lt
  rcases encodeUnit_cases u with ⟨_, hsmall, a, hbytes, ha⟩ | ⟨_, hsmall, a, hbytes, ha⟩ |
    ⟨_, a, hbytes, ha⟩
  · rw [hbytes, List.singleton_append, units_one (by omega), ha, UInt16.ofNat_toNat]
  · rw [hbytes, List.cons_append, List.singleton_append, units_two (by omega), ha, Utf8.low_trail,
      bits_of_two hsmall, UInt16.ofNat_toNat]
  · rw [hbytes, List.cons_append, List.cons_append, List.singleton_append, units_three (by omega),
      ha, Utf8.low_trail, Utf8.low_trail, bits_of_three hlt, UInt16.ofNat_toNat]

theorem units_flatMap_encodeUnit (us : List UInt16) : units (us.flatMap encodeUnit) = us := by
  induction us with
  | nil => simp [units]
  | cons u us ih => rw [List.flatMap_cons, units_encodeUnit, ih]

/-- The slow way reads every text back. -/
theorem decodeUnits_encode (text : String) : decodeUnits (encode text) = text.toList := by
  rw [decodeUnits, encode, units_flatMap_encodeUnit, Utf16.decodeLossy_encode]

/-! ## As plain UTF-8 -/

/-- The bytes of one character. -/
def encodeChar (c : Char) : Bytes := (Utf16.unitsOfChar c).flatMap encodeUnit

theorem encode_ofList_cons (c : Char) (text : List Char) :
    encode (String.ofList (c :: text)) = encodeChar c ++ encode (String.ofList text) := by
  simp [encode, encodeChar, Utf16.encode, List.flatMap_append]

/-- The second byte of a surrogate is the one that plain UTF-8 bars after `ED`. -/
theorem fitsThree_trail {a : UInt8} {n : Nat} (h : 0x800 ≤ n) (hn : n < 0x10000)
    (ha : a.toNat = 0xE0 + n / 0x1000) :
    Utf8.fitsThree a (trail (n / 0x40)) = !decide (0xD800 ≤ n ∧ n ≤ 0xDFFF) := by
  rw [Bool.eq_iff_iff, Utf8.fitsThree_iff, ha, Utf8.toNat_trail]
  simp only [Bool.not_eq_true', decide_eq_false_iff_not]
  split <;> split <;> omega

/-- A unit passes for plain UTF-8 where it is no surrogate. -/
theorem head_encodeUnit {u : UInt16} (hu : 0 < u.toNat) (rest : Bytes) :
    ∃ a more, encodeUnit u = a :: more ∧
      Utf8.head a (more ++ rest) =
        if 0xD800 ≤ u.toNat ∧ u.toNat ≤ 0xDFFF then .broken 1
        else .char (Char.ofNat u.toNat) (more.length + 1) := by
  have hlt := u.toNat_lt
  rcases encodeUnit_cases u with ⟨_, hsmall, a, hbytes, ha⟩ | ⟨hlarge, hsmall, a, hbytes, ha⟩ |
    ⟨hlarge, a, hbytes, ha⟩
  · refine ⟨a, _, hbytes, ?_⟩
    rw [Utf8.head_one (by omega), ha, if_neg (by omega)]
    rfl
  · refine ⟨a, _, hbytes, ?_⟩
    rw [List.singleton_append, Utf8.head_two (by omega) (Utf8.isTrail_trail _), ha, Utf8.low_trail,
      bits_of_two hsmall, if_neg (by omega)]
    rfl
  · refine ⟨a, _, hbytes, ?_⟩
    rw [List.cons_append, List.singleton_append, Utf8.head_three (by omega),
      fitsThree_trail hlarge hlt ha, ha, Utf8.low_trail, Utf8.low_trail, bits_of_three hlt,
      Utf8.isTrail_trail, if_pos rfl]
    by_cases hsurrogate : 0xD800 ≤ u.toNat ∧ u.toNat ≤ 0xDFFF
    · simp [hsurrogate]
    · simp [hsurrogate]

/-- Whether plain UTF-8 spells a character in the same bytes: it is one unit, and not zero. -/
def isPlain (c : Char) : Bool := 0 < c.toNat && c.toNat < 0x10000

/-- What plain UTF-8 makes of the bytes of one character: that character, or nothing at all
where this form spells it another way. -/
theorem head_encodeChar (c : Char) (rest : Bytes) :
    ∃ a more, encodeChar c = a :: more ∧
      if isPlain c then Utf8.head a (more ++ rest) = .char c (more.length + 1)
      else ∃ size, Utf8.head a (more ++ rest) = .broken size := by
  have hrange := char_range c
  unfold encodeChar Utf16.unitsOfChar
  by_cases hsmall : c.toNat < 0x10000
  · have hunit : (UInt16.ofNat c.toNat).toNat = c.toNat := by
      rw [UInt16.toNat_ofNat']
      omega
    simp only [hsmall, if_true, List.flatMap_cons, List.flatMap_nil, List.append_nil]
    rcases Nat.eq_zero_or_pos c.toNat with hzero | hpos
    · have hplain : isPlain c = false := by simp [isPlain, hzero]
      rw [hzero, hplain]
      exact ⟨0xC0, [0x80], rfl, 1, rfl⟩
    · obtain ⟨a, more, hbytes, hhead⟩ := head_encodeUnit (by rwa [hunit]) rest
      have hplain : isPlain c = true := by simp [isPlain, hpos, hsmall]
      refine ⟨a, more, hbytes, ?_⟩
      rw [hplain, if_pos rfl, hhead, hunit, if_neg (by omega), Char.ofNat_toNat]
  · have hunit : (UInt16.ofNat (0xD800 + (c.toNat - 0x10000) / 0x400)).toNat =
        0xD800 + (c.toNat - 0x10000) / 0x400 := by
      rw [UInt16.toNat_ofNat']
      omega
    have hplain : isPlain c = false := by simp [isPlain, hsmall]
    simp only [hsmall, if_false, List.flatMap_cons, List.flatMap_nil, List.append_nil]
    generalize encodeUnit (UInt16.ofNat (0xDC00 + (c.toNat - 0x10000) % 0x400)) = low
    obtain ⟨a, more, hbytes, hhead⟩ := head_encodeUnit
      (u := UInt16.ofNat (0xD800 + (c.toNat - 0x10000) / 0x400)) (by omega) (low ++ rest)
    refine ⟨a, more ++ low, by rw [hbytes, List.cons_append], ?_⟩
    rw [hplain, if_neg Bool.false_ne_true, List.append_assoc, hhead, if_pos (by omega)]
    exact ⟨1, rfl⟩

/-- With a step for each byte, plain UTF-8 reads a text of plain characters and no other. -/
theorem decodeWith_encode (text : List Char) {fuel : Nat}
    (hfuel : (encode (String.ofList text)).length ≤ fuel) :
    Utf8.decodeWith fuel (encode (String.ofList text)) =
      if text.all isPlain then some text else none := by
  induction text generalizing fuel with
  | nil => cases fuel <;> rfl
  | cons c text ih =>
    obtain ⟨a, more, hbytes, hhead⟩ := head_encodeChar c (encode (String.ofList text))
    rw [encode_ofList_cons, hbytes, List.cons_append] at hfuel ⊢
    cases fuel with
    | zero => simp at hfuel
    | succ fuel =>
      have hrest : (encode (String.ofList text)).length ≤ fuel := by
        simp only [List.length_cons, List.length_append] at hfuel
        omega
      rw [Utf8.decodeWith, List.all_cons]
      cases hplain : isPlain c with
      | true =>
        rw [hplain, if_pos rfl] at hhead
        rw [hhead]
        simp only [List.drop_succ_cons, List.drop_left, ih hrest, Bool.true_and]
        split <;> rfl
      | false =>
        rw [hplain] at hhead
        obtain ⟨size, hbroken⟩ := hhead
        rw [hbroken]
        rfl

theorem decode?_encode (text : String) : Utf8.decode? (encode text) =
    if text.toList.all isPlain then some text.toList else none := by
  have hread := decodeWith_encode text.toList (Nat.le_refl (encode (String.ofList text.toList)).length)
  rwa [String.ofList_toList] at hread

/-- Every text comes back from its bytes. -/
theorem decode_encode (text : String) : decode (encode text) = text := by
  rw [decode, decode?_encode]
  split
  · rw [Option.getD_some, String.ofList_toList]
  · rw [Option.getD_none, decodeUnits_encode, String.ofList_toList]

/-- A text comes back from its bytes whichever way they are read. As plain UTF-8 they are read
if it spells all characters alike, and not at all otherwise; unit by unit they always are. -/
theorem a_text_is_read_back_either_way (text : String) :
    decode (encode text) = text ∧
      Utf8.decode? (encode text) =
        (if text.toList.all isPlain then some text.toList else none) ∧
      decodeUnits (encode text) = text.toList :=
  ⟨decode_encode text, decode?_encode text, decodeUnits_encode text⟩

end ModifiedUtf8

end ClassAtlas
