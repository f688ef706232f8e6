-- The fingerprint of a filter tells it from all others: its digits spell the four lists, and
-- a number spells its digits.
import ClassAtlas.Filter
import ClassAtlas.Proofs.Text.ModifiedUtf8
import ClassAtlas.Proofs.Text.Parts
import Mathlib.Data.List.Induction

namespace ClassAtlas.NameFilter

/-! ## Digits of a number -/

/-- The number that some digits spell behind a leading one. -/
def ofDigits (digits : List Nat) : Nat := digits.foldl (fun n d => n * fingerprintBase + d) 1

theorem ofDigits_snoc (digits : List Nat) (d : Nat) :
    ofDigits (digits ++ [d]) = ofDigits digits * fingerprintBase + d := by
  simp [ofDigits]

theorem ofDigits_pos (digits : List Nat) : 0 < ofDigits digits := by
  induction digits using List.reverseRecOn with
  | nil => simp [ofDigits]
  | append_singleton digits d ih =>
    have hbase : 0 < fingerprintBase := by decide
    rw [ofDigits_snoc]
    exact Nat.add_pos_left (Nat.mul_pos ih hbase) d

theorem ofDigits_injective {digits digits' : List Nat} (hle : ∀ d ∈ digits, d < fingerprintBase)
    (hle' : ∀ d ∈ digits', d < fingerprintBase) (h : ofDigits digits = ofDigits digits') :
    digits = digits' := by
  have hlong : ∀ (front : List Nat) (d : Nat), ofDigits (front ++ [d]) ≠ ofDigits [] := by
    intro front d heq
    have hpos := ofDigits_pos front
    have hbase : 1 < fingerprintBase := by decide
    have hgreat : 1 * fingerprintBase ≤ ofDigits front * fingerprintBase :=
      Nat.mul_le_mul_right _ hpos
    rw [ofDigits_snoc] at heq
    simp only [ofDigits, List.foldl_nil] at heq hgreat
    omega
  induction digits using List.reverseRecOn generalizing digits' with
  | nil =>
    cases digits' using List.reverseRecOn with
    | nil => rfl
    | append_singleton front d => exact absurd h.symm (hlong front d)
  | append_singleton front d ih =>
    cases digits' using List.reverseRecOn with
    | nil => exact absurd h (hlong front d)
    | append_singleton front' d' =>
      have hd := hle d (by simp)
      have hd' := hle' d' (by simp)
      rw [ofDigits_snoc, ofDigits_snoc] at h
      have hlast : d = d' := by
        have hmod := congrArg (· % fingerprintBase) h
        simpa [Nat.add_mod, Nat.mod_eq_of_lt hd, Nat.mod_eq_of_lt hd'] using hmod
      subst hlast
      have hfront : ofDigits front = ofDigits front' :=
        Nat.eq_of_mul_eq_mul_right (by decide) (Nat.add_right_cancel h)
      rw [ih (fun e he => hle e (by simp [he])) (fun e he => hle' e (by simp [he])) hfront]

/-! ## Digits of texts -/

theorem digit_lt {texts : List String} : ∀ d ∈ digitsOfTexts texts, d < fingerprintBase := by
  intro d hd
  have hbase : fingerprintBase = 0x110002 := rfl
  unfold digitsOfTexts at hd
  simp only [List.mem_append, List.mem_flatMap, List.mem_map, List.mem_singleton] at hd
  rcases hd with ⟨text, _, ⟨c, _, rfl⟩ | rfl⟩ | rfl
  · have hc := char_range c
    omega
  · decide
  · decide

theorem digitsOfTexts_unique {texts texts' : List String} {rest rest' : List Nat}
    (h : digitsOfTexts texts ++ rest = digitsOfTexts texts' ++ rest') :
    texts = texts' ∧ rest = rest' := by
  have hletter : Function.Injective fun c : Char => c.toNat + 2 := by
    intro c c' hc
    exact Char.toNat_inj.mp (Nat.add_right_cancel hc)
  have hwords : ∀ texts : List String, digitsOfTexts texts =
      (texts.map String.toList).flatMap (fun word => word.map (fun c => c.toNat + 2) ++ [1]) ++ [0] := by
    intro texts
    rw [digitsOfTexts, List.flatMap_map]
  have hend : ∀ rest : List Nat, ∀ b ∈ (0 :: rest).head?, b ≠ 1 ∧ ∀ c : Char, c.toNat + 2 ≠ b := by
    intro rest b hb
    obtain rfl : 0 = b := by simpa using hb
    exact ⟨by decide, fun c => by omega⟩
  rw [hwords, hwords, List.append_assoc, List.append_assoc] at h
  obtain ⟨htexts, hrest⟩ := words_unique hletter (fun c => by omega) (hend rest) (hend rest') h
  exact ⟨List.map_injective_iff.mpr (fun _ _ => String.toList_inj.mp) htexts, (List.cons.inj hrest).2⟩

/-- Two filters with one fingerprint are the same. -/
theorem fingerprint_injective {f f' : NameFilter} (h : f.fingerprint = f'.fingerprint) : f = f' := by
  have hdigits : ∀ (f : NameFilter), ∀ d ∈ digitsOfTexts f.acceptPackages ++
      digitsOfTexts f.rejectPackages ++ digitsOfTexts (f.acceptArchives.map Glob.pattern) ++
      digitsOfTexts (f.rejectArchives.map Glob.pattern), d < fingerprintBase := by
    intro f d hd
    simp only [List.mem_append] at hd
    rcases hd with ((hd | hd) | hd) | hd <;> exact digit_lt d hd
  have hspelled := ofDigits_injective (hdigits f) (hdigits f') h
  have hpattern : Function.Injective Glob.pattern := fun ⟨_⟩ ⟨_⟩ heq => congrArg Glob.mk heq
  rw [List.append_assoc, List.append_assoc, List.append_assoc, List.append_assoc] at hspelled
  obtain ⟨haccept, hspelled⟩ := digitsOfTexts_unique hspelled
  obtain ⟨hreject, hspelled⟩ := digitsOfTexts_unique hspelled
  obtain ⟨haccept', hspelled⟩ := digitsOfTexts_unique hspelled
  have hreject' := (digitsOfTexts_unique (congrArg (· ++ []) hspelled)).1
  cases f
  cases f'
  simp only [mk.injEq]
  exact ⟨haccept, hreject, List.map_injective_iff.mpr hpattern haccept',
    List.map_injective_iff.mpr hpattern hreject'⟩

end ClassAtlas.NameFilter
