-- Where the constants of a pool are found. The number of a constant is one more than the numbers
-- that those before it take. A pool has as many numbers as its first two bytes declare, unless
-- the constant at the last of these needs one more.
import Mathlib.Algebra.GroupWithZero.Nat
import ClassAtlas.Proofs.Descriptor.Answers
import ClassAtlas.Proofs.Descriptor.Pool

namespace ClassAtlas.ConstantPool

open BigEndian (word16)
open Decoder

/-! ## Pools that are written -/

/-- The pool has the constants in their order and nothing else: each one at its number, and
behind a wide one a number that names nothing. -/
structure Lists (pool : ConstantPool) (constants : List Constant) : Prop where
  size : pool.size = slotsOf constants + 1
  constant : ∀ front c back, constants = front ++ c :: back →
    pool.get (UInt16.ofNat (slotsOf front + 1)) = .ok c
  second : ∀ front c back, constants = front ++ c :: back → c.isWide = true →
    pool.get (UInt16.ofNat (slotsOf front + 2)) = .ok .unusable
  missing : ∀ index : UInt16, index = 0 ∨ pool.size ≤ index.toNat →
    pool.get index = .error (.noSuchConstant index pool.size)

theorem get_of_getElem? {pool : ConstantPool} {index : Nat} {c : Constant} (hpos : 0 < index)
    (hlast : index ≤ 65535) (h : pool.entries[index]? = some c) :
    pool.get (UInt16.ofNat index) = .ok c := by
  have hindex : (UInt16.ofNat index).toNat = index := by
    rw [UInt16.toNat_ofNat']
    omega
  have hne : UInt16.ofNat index ≠ 0 := by
    intro hzero
    rw [hzero] at hindex
    simp at hindex
    omega
  rw [get, if_neg hne, hindex, h]

theorem get_of_missing {pool : ConstantPool} {index : UInt16}
    (h : index = 0 ∨ pool.size ≤ index.toNat) :
    pool.get index = .error (.noSuchConstant index pool.size) := by
  unfold get
  split
  · rfl
  · next hne =>
    rw [Array.getElem?_eq_none (h.resolve_left hne)]

theorem length_spreads (constants : List Constant) :
    (constants.flatMap Constant.spread).length = slotsOf constants := by
  simp [Constant.length_spread, slotsOf]

theorem getElem?_ofConstants (front back : List Constant) {c : Constant} {k : Nat} (hk : k < c.slots) :
    (ofConstants (front ++ c :: back)).entries[slotsOf front + (k + 1)]? = c.spread[k]? := by
  have hfront : (Constant.unusable :: front.flatMap Constant.spread).length = slotsOf front + 1 := by
    rw [List.length_cons, length_spreads]
  have hsplit : Constant.unusable :: (front ++ c :: back).flatMap Constant.spread =
      (Constant.unusable :: front.flatMap Constant.spread) ++
        (c.spread ++ back.flatMap Constant.spread) := by
    simp
  have hoffset : slotsOf front + (k + 1) = slotsOf front + 1 + k := by omega
  rw [ofConstants, List.getElem?_toArray, hsplit, hoffset, ← hfront,
    List.getElem?_append_right (Nat.le_add_right _ _), Nat.add_sub_cancel_left,
    List.getElem?_append_left (by rwa [c.length_spread])]

theorem lists_ofConstants {constants : List Constant} (hslots : slotsOf constants ≤ 65534) :
    (ofConstants constants).Lists constants where
  size := by rw [size, ofConstants, List.size_toArray, List.length_cons, length_spreads]
  constant := by
    rintro front c back rfl
    have hpos := c.slots_pos
    rw [slotsOf_append, slotsOf_cons] at hslots
    refine get_of_getElem? (by omega) (by omega) ((getElem?_ofConstants front back hpos).trans ?_)
    unfold Constant.spread
    split <;> rfl
  second := by
    rintro front c back rfl hwide
    have htwo : c.slots = 2 := by rw [Constant.slots, if_pos hwide]
    rw [slotsOf_append, slotsOf_cons] at hslots
    refine get_of_getElem? (by omega) (by omega)
      ((getElem?_ofConstants front back (k := 1) (by omega)).trans ?_)
    rw [Constant.spread, if_pos hwide]
    rfl
  missing := fun _ => get_of_missing

/-! ## Pools that are read -/

/-- The entries take `n` numbers, or one more if the constant at the last of these is wide. -/
def Fills (n : Nat) (entries : Array Constant) : Prop :=
  ∃ c, entries[n - 1]? = some c ∧ entries.size = if c.isWide then n + 1 else n

theorem fills_push {entries : Array Constant} {c : Constant} (h : c.isWide = false) :
    Fills (entries.size + 1) (entries.push c) := by
  refine ⟨c, by simp, ?_⟩
  rw [h]
  exact Array.size_push c

theorem fills_pushWide {entries : Array Constant} {c : Constant} (h : c.isWide = true) :
    Fills (entries.size + 1) ((entries.push c).push .unusable) := by
  refine ⟨c, ?_, ?_⟩
  · rw [Nat.add_sub_cancel, Array.getElem?_push_lt (by simp)]
    simp
  · rw [h]
    simp

/-- Whatever was read before, the entries go on until the numbers are taken. -/
theorem gives_decodeEntries (todo : Nat) (entries : Array Constant) (h : Fills entries.size entries) :
    Gives (decodeEntries todo entries) (Fills (entries.size + todo)) := by
  induction todo, entries using decodeEntries.induct with
  | case1 entries => exact gives_pure h
  | case2 todo entries hwide hplain =>
    rw [decodeEntries]
    refine gives_bind fun c => ?_
    split
    case isTrue hc =>
      cases todo with
      | zero => exact gives_pure (fills_pushWide hc)
      | succ todo =>
        have hnext : Fills ((entries.push c).push .unusable).size ((entries.push c).push .unusable) := by
          rw [Array.size_push]
          exact fills_push rfl
        have hsize : ((entries.push c).push .unusable).size + todo = entries.size + (todo + 1 + 1) := by
          simp only [Array.size_push]
          omega
        rw [← hsize]
        exact hwide c hnext
    case isFalse hc =>
      have hnext : Fills (entries.push c).size (entries.push c) := by
        rw [Array.size_push]
        exact fills_push (by simpa using hc)
      have hsize : (entries.push c).size + todo = entries.size + (todo + 1) := by
        rw [Array.size_push]
        omega
      rw [← hsize]
      exact hplain c hnext

/-- A wide constant begins at the last of the numbers that are declared. -/
def Overflows (pool : ConstantPool) (count : UInt16) : Prop :=
  ∃ index : UInt16, index.toNat + 1 = count.toNat ∧ ∃ c, pool.get index = .ok c ∧ c.isWide = true

/-- The pool has the numbers that are declared, and at least number 0. -/
structure HasNumbers (pool : ConstantPool) (count : UInt16) : Prop where
  fits : ¬ pool.Overflows count → pool.size = max count.toNat 1
  overflows : pool.Overflows count → pool.size = count.toNat + 1

theorem hasNumbers_of_fills {pool : ConstantPool} {count : UInt16} (hcount : 2 ≤ count.toNat)
    (h : Fills count.toNat pool.entries) : pool.HasNumbers count := by
  obtain ⟨c, hlast, hsize⟩ := h
  have hlt := count.toNat_lt
  have hget := get_of_getElem? (by omega) (by omega) hlast
  have hindex : (UInt16.ofNat (count.toNat - 1)).toNat + 1 = count.toNat := by
    rw [UInt16.toNat_ofNat']
    omega
  constructor
  case fits =>
    intro hfits
    have hplain : c.isWide ≠ true := fun hwide => hfits ⟨_, hindex, c, hget, hwide⟩
    rw [size, hsize, if_neg hplain]
    omega
  case overflows =>
    rintro ⟨index, hnext, d, hd, hwide⟩
    obtain rfl : UInt16.ofNat (count.toNat - 1) = index := UInt16.toNat_inj.mp (by omega)
    obtain rfl : c = d := Except.ok.inj (hget.symm.trans hd)
    rw [size, hsize, if_pos hwide]

theorem hasNumbers_empty {count : UInt16} (hcount : count.toNat ≤ 1) :
    HasNumbers ⟨#[.unusable]⟩ count where
  fits := fun _ => (Nat.max_eq_right hcount).symm
  overflows := by
    rintro ⟨index, hnext, d, hd, -⟩
    obtain rfl : index = 0 := UInt16.toNat_inj.mp (by simp; omega)
    cases hd

theorem hasNumbers_of_decode {pool : ConstantPool} {c c' : Cursor} (h : decode c = .ok pool c') :
    ∃ count more, c.rest = word16 count ++ more ∧ pool.HasNumbers count := by
  obtain ⟨count, c₁, hcount, hentries⟩ := bind_eq_ok h
  obtain ⟨entries, c₂, hread, hpool⟩ := bind_eq_ok hentries
  cases hpool
  refine ⟨count, c₁.rest, u2_eq_ok hcount, ?_⟩
  by_cases hsmall : count.toNat ≤ 1
  · rw [Nat.sub_eq_zero_of_le hsmall] at hread
    cases hread
    exact hasNumbers_empty hsmall
  · have hfills := gives_decodeEntries (count.toNat - 1) #[.unusable] ⟨.unusable, rfl, rfl⟩ _ _ _ hread
    have hsize : #[Constant.unusable].size + (count.toNat - 1) = count.toNat := by
      simp
      omega
    rw [hsize] at hfills
    exact hasNumbers_of_fills (by omega) hfills

/-- Constants that fit come back from their bytes, before all others, and each is found under its
number. Whatever is accepted has the numbers that it declares, and one more exactly if a wide
constant begins at the last of them. -/
theorem constants_are_found_under_their_numbers :
    (∀ constants : List Constant, (∀ c ∈ constants, c.Fits) → slotsOf constants ≤ 65534 →
      ∃ pool, Reads decode (word16 (UInt16.ofNat (slotsOf constants + 1)) ++
        constants.flatMap Constant.encode) pool ∧ pool.Lists constants) ∧
    (∀ c pool c', decode c = .ok pool c' →
      ∃ count more, c.rest = word16 count ++ more ∧ pool.HasNumbers count) := by
  refine ⟨fun constants hfit hslots => ?_, fun c pool c' h => hasNumbers_of_decode h⟩
  refine ⟨ofConstants constants, ?_, lists_ofConstants hslots⟩
  rw [Nat.add_comm]
  exact reads_ofConstants hfit hslots

/-- A text with a letter of two bytes, and wide constants in front of others. -/
def mixedConstants : List Constant := [.text "é", .long (-1), .classRef 1, .double 9, .integer 5]

/-- The mixed constants with a byte behind them, and a pool that declares one number and holds a
wide constant. -/
theorem mixed_constants_are_found :
    (∃ pool, decode ⟨0, word16 8 ++ mixedConstants.flatMap Constant.encode ++ [9]⟩ =
        .ok pool ⟨33, [9]⟩ ∧
      pool.size = 8 ∧ pool.get 2 = .ok (.long (-1)) ∧ pool.get 3 = .ok .unusable ∧
      pool.get 4 = .ok (.classRef 1) ∧ pool.get 8 = .error (.noSuchConstant 8 8)) ∧
    ∃ pool c, decode ⟨0, word16 2 ++ (Constant.long 7).encode⟩ = .ok pool c ∧ pool.size = 3 := by
  have hfit : ∀ c ∈ mixedConstants, c.Fits := by
    have htext : TextFits "é" := by decide
    simpa [mixedConstants, Constant.Fits] using htext
  obtain ⟨hwritten, hread⟩ := constants_are_found_under_their_numbers
  constructor
  · obtain ⟨pool, hreads, hlists⟩ := hwritten mixedConstants hfit (by decide)
    have hsize : pool.size = 8 := hlists.size
    refine ⟨pool, hreads 0 [9], hsize, ?_, ?_, ?_, ?_⟩
    · exact hlists.constant [.text "é"] _ _ rfl
    · exact hlists.second [.text "é"] _ _ rfl rfl
    · exact hlists.constant [.text "é", .long (-1)] _ _ rfl
    · rw [hlists.missing 8 (Or.inr (Nat.le_of_eq hsize)), hsize]
  · obtain ⟨pool, c, hdecode, hwide⟩ : ∃ pool c, decode ⟨0, word16 2 ++ (Constant.long 7).encode⟩ =
        .ok pool c ∧ pool.get 1 = .ok (.long 7) := ⟨_, _, rfl, rfl⟩
    obtain ⟨count, more, hrest, hnumbers⟩ := hread _ _ _ hdecode
    have hbytes : word16 2 ++ (Constant.long 7).encode = word16 count ++ more := hrest
    have hcount : count = 2 := by
      have hdeclared := reads_word16 2 0 (Constant.long 7).encode
      rw [hbytes, reads_word16 count 0 more] at hdeclared
      cases hdeclared
      rfl
    subst hcount
    exact ⟨pool, c, hdecode, hnumbers.overflows ⟨1, rfl, .long 7, hwide, rfl⟩⟩

end ClassAtlas.ConstantPool
