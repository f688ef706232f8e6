-- Strict reading takes back every text that was written and reads nothing else. The bytes of
-- each character begin with a lead byte that tells their number, and no overlong form is ever
-- written.
import ClassAtlas.Proofs.Text.ModifiedUtf8

namespace ClassAtlas.Utf8

theorem fitsFour_iff (a b : UInt8) : fitsFour a b = true ↔
    (if a.toNat = 0xF0 then 0x90 else 0x80) ≤ b.toNat ∧
      b.toNat ≤ (if a.toNat = 0xF4 then 0x8F else 0xBF) := by
  have hF0 : a = 0xF0 ↔ a.toNat = 0xF0 := UInt8.toNat_inj.symm
  have hF4 : a = 0xF4 ↔ a.toNat = 0xF4 := UInt8.toNat_inj.symm
  unfold fitsFour
  simp only [hF0, hF4]
  by_cases h1 : a.toNat = 0xF0
  · simp [h1, UInt8.le_iff_toNat_le]
  · by_cases h2 : a.toNat = 0xF4
    · simp [h2, UInt8.le_iff_toNat_le]
    · simp [h1, h2, isTrail_iff]

theorem head_four {a b c d : UInt8} (h : 0xF0 ≤ a.toNat ∧ a.toNat ≤ 0xF4)
    (hb : fitsFour a b = true) (hc : isTrail c = true) (hd : isTrail d = true) (rest : Bytes) :
    head a (b :: c :: d :: rest) =
      .char (Char.ofNat (a.toNat % 0x08 * 0x40000 + low b * 0x1000 + low c * 0x40 + low d)) 4 := by
  have h1 : ¬a < 0x80 := by rw [UInt8.lt_iff_toNat_lt]; simp; omega
  have h2 : (0xC2 ≤ a && a ≤ 0xDF) = false := by simp [UInt8.le_iff_toNat_le]; omega
  have h3 : (0xE0 ≤ a && a ≤ 0xEF) = false := by simp [UInt8.le_iff_toNat_le]; omega
  have h4 : (0xF0 ≤ a && a ≤ 0xF4) = true := by simp [UInt8.le_iff_toNat_le]; omega
  simp only [head, h1, h2, h3, h4, hb, hc, hd, if_true, if_false, Bool.false_eq_true]

/-- A byte that holds six bits of a number is written as a continuation byte. -/
theorem ofNat_add_eq_trail (n : Nat) : UInt8.ofNat (n % 64 + 128) = trail n := by
  unfold trail
  rw [Nat.add_comm]

/-- A character takes one to four bytes, by its number. -/
theorem utf8EncodeChar_cases (c : Char) :
    (c.toNat < 0x80 ∧ ∃ a, String.utf8EncodeChar c = [a] ∧ a.toNat = c.toNat) ∨
    (0x80 ≤ c.toNat ∧ c.toNat < 0x800 ∧
      ∃ a, String.utf8EncodeChar c = [a, trail c.toNat] ∧ a.toNat = 0xC0 + c.toNat / 0x40) ∨
    (0x800 ≤ c.toNat ∧ c.toNat < 0x10000 ∧
      ∃ a, String.utf8EncodeChar c = [a, trail (c.toNat / 0x40), trail c.toNat] ∧
        a.toNat = 0xE0 + c.toNat / 0x1000) ∨
    (0x10000 ≤ c.toNat ∧
      ∃ a, String.utf8EncodeChar c =
          [a, trail (c.toNat / 0x1000), trail (c.toNat / 0x40), trail c.toNat] ∧
        a.toNat = 0xF0 + c.toNat / 0x40000) := by
  have hrange := char_range c
  have hval : c.val.toNat = c.toNat := rfl
  unfold String.utf8EncodeChar
  simp only [hval, ofNat_add_eq_trail]
  split
  · refine Or.inl ⟨by omega, _, rfl, ?_⟩
    rw [UInt8.toNat_ofNat']
    omega
  split
  · refine Or.inr (Or.inl ⟨by omega, by omega, _, rfl, ?_⟩)
    rw [UInt8.toNat_ofNat']
    omega
  split
  · refine Or.inr (Or.inr (Or.inl ⟨by omega, by omega, _, rfl, ?_⟩))
    rw [UInt8.toNat_ofNat']
    omega
  · refine Or.inr (Or.inr (Or.inr ⟨by omega, _, rfl, ?_⟩))
    rw [UInt8.toNat_ofNat']
    omega

/-- The first character of the bytes of a text is the first one of the text. -/
theorem head_utf8EncodeChar (c : Char) (rest : Bytes) :
    ∃ a more, String.utf8EncodeChar c = a :: more ∧
      head a (more ++ rest) = .char c (more.length + 1) := by
  have hrange := char_range c
  rcases utf8EncodeChar_cases c with ⟨_, a, hbytes, hlead⟩ | ⟨_, _, a, hbytes, hlead⟩ |
    ⟨_, _, a, hbytes, hlead⟩ | ⟨_, a, hbytes, hlead⟩
  · refine ⟨a, _, hbytes, ?_⟩
    rw [head_one (by omega), hlead, Char.ofNat_toNat]
    rfl
  · have hcode : (0xC0 + c.toNat / 0x40) % 0x20 * 0x40 + c.toNat % 0x40 = c.toNat := by omega
    refine ⟨a, _, hbytes, ?_⟩
    rw [List.singleton_append, head_two (by omega) (isTrail_trail _), hlead, low_trail, hcode,
      Char.ofNat_toNat]
    rfl
  · have hcode : (0xE0 + c.toNat / 0x1000) % 0x10 * 0x1000 + c.toNat / 0x40 % 0x40 * 0x40 +
        c.toNat % 0x40 = c.toNat := by omega
    -- the lead byte bars the overlong forms and the surrogates, and a character is neither
    have hfits : fitsThree a (trail (c.toNat / 0x40)) = true := by
      rw [fitsThree_iff, hlead, toNat_trail]
      split <;> split <;> omega
    refine ⟨a, _, hbytes, ?_⟩
    rw [List.cons_append, List.singleton_append, head_three (by omega), hlead, low_trail, low_trail,
      hcode, isTrail_trail, hfits, Char.ofNat_toNat]
    rfl
  · have hcode : (0xF0 + c.toNat / 0x40000) % 0x08 * 0x40000 + c.toNat / 0x1000 % 0x40 * 0x1000 +
        c.toNat / 0x40 % 0x40 * 0x40 + c.toNat % 0x40 = c.toNat := by omega
    have hfits : fitsFour a (trail (c.toNat / 0x1000)) = true := by
      rw [fitsFour_iff, hlead, toNat_trail]
      split <;> split <;> omega
    refine ⟨a, _, hbytes, ?_⟩
    rw [List.cons_append, List.cons_append, List.singleton_append,
      head_four (by omega) hfits (isTrail_trail _) (isTrail_trail _), hlead, low_trail, low_trail,
      low_trail, hcode, Char.ofNat_toNat]
    rfl

/-- With a step for each byte a text is read back from its bytes. -/
theorem decodeWith_encode (text : List Char) {fuel : Nat} (hfuel : (encode text).length ≤ fuel) :
    decodeWith fuel (encode text) = some text := by
  induction text generalizing fuel with
  | nil => cases fuel <;> rfl
  | cons c text ih =>
    obtain ⟨a, more, hbytes, hhead⟩ := head_utf8EncodeChar c (encode text)
    have hencode : encode (c :: text) = a :: (more ++ encode text) := by
      unfold encode at *
      rw [List.flatMap_cons, hbytes, List.cons_append]
    rw [hencode] at hfuel ⊢
    cases fuel with
    | zero => simp at hfuel
    | succ fuel =>
      have hrest : (encode text).length ≤ fuel := by
        simp only [List.length_cons, List.length_append] at hfuel
        omega
      rw [decodeWith, hhead]
      simp only [List.drop_succ_cons, List.drop_left, ih hrest, Option.map_some]

theorem decode?_encode (text : List Char) : decode? (encode text) = some text :=
  decodeWith_encode text (Nat.le_refl _)

/-! ## Only texts are read -/

theorem toNat_ofNat {n : Nat} (h : n.isValidChar) : (Char.ofNat n).toNat = n := by
  unfold Char.ofNat
  rw [dif_pos h]
  rfl

theorem trail_eq {b : UInt8} {n : Nat} (hb : isTrail b = true) (hn : n % 0x40 = low b) :
    trail n = b := by
  rw [isTrail_iff] at hb
  have hlow : low b = b.toNat % 0x40 := rfl
  rw [← UInt8.toNat_inj, toNat_trail]
  omega

theorem low_lt (b : UInt8) : low b < 0x40 := Nat.mod_lt _ (by decide)

theorem utf8EncodeChar_one {a : UInt8} (h : a.toNat < 0x80) :
    String.utf8EncodeChar (Char.ofNat a.toNat) = [a] := by
  have hcode : (Char.ofNat a.toNat).toNat = a.toNat := toNat_ofNat (Or.inl (by omega))
  rcases utf8EncodeChar_cases (Char.ofNat a.toNat) with ⟨_, a', hbytes, hlead⟩ | ⟨hge, _⟩ |
    ⟨hge, _⟩ | ⟨hge, _⟩
  · rw [hbytes, UInt8.toNat_inj.mp (hlead.trans hcode)]
  all_goals omega

theorem utf8EncodeChar_two {a b : UInt8} (ha : 0xC2 ≤ a.toNat ∧ a.toNat ≤ 0xDF)
    (hb : isTrail b = true) :
    String.utf8EncodeChar (Char.ofNat (a.toNat % 0x20 * 0x40 + low b)) = [a, b] := by
  have hlow := low_lt b
  generalize hn : a.toNat % 0x20 * 0x40 + low b = n
  have hcode : (Char.ofNat n).toNat = n := toNat_ofNat (Or.inl (by omega))
  rcases utf8EncodeChar_cases (Char.ofNat n) with ⟨_, _⟩ | ⟨_, _, a', hbytes, hlead⟩ |
    ⟨_, _⟩ | ⟨_, _⟩
  rotate_left
  · have ha' : a' = a := UInt8.toNat_inj.mp (by omega)
    rw [hbytes, ha', hcode, trail_eq hb (by omega)]
  all_goals omega

theorem utf8EncodeChar_three {a b c : UInt8} (ha : 0xE0 ≤ a.toNat ∧ a.toNat ≤ 0xEF)
    (hb : fitsThree a b = true) (hc : isTrail c = true) :
    String.utf8EncodeChar (Char.ofNat (a.toNat % 0x10 * 0x1000 + low b * 0x40 + low c)) =
      [a, b, c] := by
  have hlowb : low b = b.toNat % 0x40 := rfl
  have hlowc := low_lt c
  rw [fitsThree_iff] at hb
  have htrail : isTrail b = true := by
    rw [isTrail_iff]
    split at hb <;> split at hb <;> omega
  generalize hn : a.toNat % 0x10 * 0x1000 + low b * 0x40 + low c = n
  have hvalid : 0x800 ≤ n ∧ n < 0x10000 ∧ n.isValidChar := by
    unfold Nat.isValidChar
    split at hb <;> split at hb <;> omega
  have hcode : (Char.ofNat n).toNat = n := toNat_ofNat hvalid.2.2
  rcases utf8EncodeChar_cases (Char.ofNat n) with ⟨_, _⟩ | ⟨_, _⟩ |
    ⟨_, _, a', hbytes, hlead⟩ | ⟨_, _⟩
  rotate_left 2
  · have ha' : a' = a := UInt8.toNat_inj.mp (by omega)
    rw [hbytes, ha', hcode, trail_eq htrail (by omega), trail_eq hc (by omega)]
  all_goals omega

theorem utf8EncodeChar_four {a b c d : UInt8} (ha : 0xF0 ≤ a.toNat ∧ a.toNat ≤ 0xF4)
    (hb : fitsFour a b = true) (hc : isTrail c = true) (hd : isTrail d = true) :
    String.utf8EncodeChar (Char.ofNat
      (a.toNat % 0x08 * 0x40000 + low b * 0x1000 + low c * 0x40 + low d)) = [a, b, c, d] := by
  have hlowb : low b = b.toNat % 0x40 := rfl
  have hlowc := low_lt c
  have hlowd := low_lt d
  rw [fitsFour_iff] at hb
  have htrail : isTrail b = true := by
    rw [isTrail_iff]
    split at hb <;> split at hb <;> omega
  generalize hn : a.toNat % 0x08 * 0x40000 + low b * 0x1000 + low c * 0x40 + low d = n
  have hvalid : 0x10000 ≤ n ∧ n < 0x110000 := by
    split at hb <;> split at hb <;> omega
  have hcode : (Char.ofNat n).toNat = n := toNat_ofNat (Or.inr ⟨by omega, hvalid.2⟩)
  rcases utf8EncodeChar_cases (Char.ofNat n) with ⟨_, _⟩ | ⟨_, _, _⟩ | ⟨_, _, _⟩ |
    ⟨_, a', hbytes, hlead⟩
  rotate_left 3
  · have ha' : a' = a := UInt8.toNat_inj.mp (by omega)
    rw [hbytes, ha', hcode, trail_eq htrail (by omega), trail_eq hc (by omega),
      trail_eq hd (by omega)]
  all_goals omega

/-- A character that is read stands there in its own bytes. -/
theorem bytes_of_head {a : UInt8} {rest : Bytes} {c : Char} {size : Nat}
    (h : head a rest = .char c size) :
    (a :: rest).take size = String.utf8EncodeChar c := by
  revert h
  fun_cases head a rest with
  | case1 _ ha =>
    rintro ⟨⟩
    rw [utf8EncodeChar_one (UInt8.lt_iff_toNat_lt.mp ha)]
    rfl
  | case2 _ ha b _ hb =>
    rintro ⟨⟩
    rw [utf8EncodeChar_two (by simpa [UInt8.le_iff_toNat_le] using ha) hb]
    rfl
  | case5 _ _ ha b hb c _ hc =>
    rintro ⟨⟩
    rw [utf8EncodeChar_three (by simpa [UInt8.le_iff_toNat_le] using ha) hb hc]
    rfl
  | case10 _ _ _ ha b hb c hc d _ hd =>
    rintro ⟨⟩
    rw [utf8EncodeChar_four (by simpa [UInt8.le_iff_toNat_le] using ha) hb hc hd]
    rfl
  -- in all other cases the front is broken
  | _ => rintro ⟨⟩

theorem eq_encode_of_decodeWith {fuel : Nat} {bytes : Bytes} {text : List Char}
    (h : decodeWith fuel bytes = some text) : bytes = encode text := by
  induction fuel generalizing bytes text with
  | zero =>
    cases bytes with
    | nil =>
      cases h
      rfl
    | cons a rest => cases h
  | succ fuel ih =>
    cases bytes with
    | nil =>
      cases h
      rfl
    | cons a rest =>
      rw [decodeWith] at h
      split at h
      · rename_i c size hhead
        obtain ⟨text', htext, rfl⟩ := Option.map_eq_some_iff.mp h
        have hencode : encode (c :: text') = String.utf8EncodeChar c ++ encode text' := rfl
        rw [hencode, ← bytes_of_head hhead, ← ih htext, List.take_append_drop]
      · cases h

/-- Strict reading gives a text for exactly the bytes that it is written in. -/
theorem decode?_eq_some_iff {bytes : Bytes} {text : List Char} :
    decode? bytes = some text ↔ bytes = encode text := by
  constructor
  · exact eq_encode_of_decodeWith
  · rintro rfl
    exact decode?_encode text

end ClassAtlas.Utf8
