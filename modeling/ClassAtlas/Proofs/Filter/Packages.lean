-- The order of packages, and what it says about filters. The packages above one package lie
-- above each other, so one that may hold accepted classes is told from the patterns alone.
import ClassAtlas.Filter
import ClassAtlas.Proofs.Text.Parts

namespace ClassAtlas

/-! ## Packages above and below each other -/

/-- What may follow the name of a package in that of a package below it or of a class. -/
def IsRest (rest : List Char) : Prop := rest = [] ∨ ∃ more, rest = '.' :: more

theorem IsRest.append {rest rest' : List Char} (h : IsRest rest) (h' : IsRest rest') :
    IsRest (rest ++ rest') := by
  rcases h with rfl | ⟨more, rfl⟩
  · exact h'
  · exact .inr ⟨more ++ rest', rfl⟩

/-- The front of a rest is itself one. -/
theorem IsRest.of_append {rest rest' : List Char} (h : IsRest (rest ++ rest')) : IsRest rest := by
  cases rest with
  | nil => exact .inl rfl
  | cons c others =>
    rcases h with h | ⟨more, h⟩
    · cases h
    · exact .inr ⟨others, congrArg (· :: others) (List.cons.inj h).1⟩

theorem withinPackage_iff {package top : String} :
    withinPackage package top ↔
      top = "" ∨ ∃ rest, package.toList = top.toList ++ rest ∧ IsRest rest := by
  unfold withinPackage
  by_cases htop : top = ""
  · simp [htop]
  simp only [htop, if_false, false_or]
  cases hdrop : Text.dropFront? top.toList package.toList with
  | none =>
    simp only [Bool.false_eq_true, false_iff]
    rintro ⟨rest, hrest, -⟩
    rw [Text.dropFront?_eq_some_iff.mpr hrest] at hdrop
    cases hdrop
  | some rest =>
    rw [Text.dropFront?_eq_some_iff] at hdrop
    have hrests : (∃ rest', package.toList = top.toList ++ rest' ∧ IsRest rest') ↔ IsRest rest := by
      rw [hdrop]
      simp
    rw [hrests]
    cases rest <;> simp [IsRest]

theorem withinPackage_empty (package : String) : withinPackage package "" :=
  withinPackage_iff.mpr (.inl rfl)

theorem withinPackage_self (package : String) : withinPackage package package :=
  withinPackage_iff.mpr (.inr ⟨[], by simp, .inl rfl⟩)

theorem not_withinPackage_of_length {package top : String}
    (h : package.toList.length < top.toList.length) : withinPackage package top = false := by
  rw [← Bool.not_eq_true, withinPackage_iff]
  rintro (rfl | ⟨rest, hrest, _⟩)
  · exact Nat.not_lt_zero _ h
  · rw [hrest, List.length_append] at h
    omega

theorem withinPackage_trans {a b c : String} (hab : withinPackage a b) (hbc : withinPackage b c) :
    withinPackage a c := by
  rw [withinPackage_iff] at *
  rcases hbc with rfl | ⟨rest, hb, hrest⟩
  · exact .inl rfl
  rcases hab with rfl | ⟨rest', ha, hrest'⟩
  · -- only the empty name lies above the empty name
    exact .inl (String.toList_eq_nil_iff.mp (List.append_eq_nil_iff.mp hb.symm).1)
  · exact .inr ⟨rest ++ rest', by rw [ha, hb, List.append_assoc], hrest.append hrest'⟩

/-- Two packages above one package lie above each other. -/
theorem withinPackage_or_withinPackage {a b c : String} (hab : withinPackage a b)
    (hac : withinPackage a c) : withinPackage b c ∨ withinPackage c b := by
  rcases withinPackage_iff.mp hab with rfl | ⟨rest, hb, hrest⟩
  · exact .inr (withinPackage_empty c)
  rcases withinPackage_iff.mp hac with rfl | ⟨rest', hc, hrest'⟩
  · exact .inl (withinPackage_empty b)
  rcases List.append_eq_append_iff.mp (hb.symm.trans hc) with ⟨more, hmore, rfl⟩ | ⟨more, hmore, rfl⟩
  · exact .inr (withinPackage_iff.mpr (.inr ⟨more, hmore, hrest.of_append⟩))
  · exact .inl (withinPackage_iff.mpr (.inr ⟨more, hmore, hrest'.of_append⟩))

/-- The package of a class lies in any package whose name and a dot its name starts with. -/
theorem withinPackage_package {name package : String} {more : List Char}
    (h : name.toList = package.toList ++ '.' :: more) :
    withinPackage (Name.package name) package := by
  unfold Name.package
  cases hsplit : Text.splitLast? '.' name.toList with
  | none =>
    have hdot := Text.splitLast?_eq_none hsplit
    rw [h] at hdot
    simp at hdot
  | some parts =>
    obtain ⟨before, after⟩ := parts
    obtain ⟨hname, hafter⟩ := Text.splitLast?_eq_some hsplit
    dsimp only
    rw [withinPackage_iff, String.toList_ofList]
    rcases List.append_eq_append_iff.mp (h.symm.trans hname) with
      ⟨rest, hbefore, hmore⟩ | ⟨rest, hpackage, hmore⟩
    · exact .inr ⟨rest, hbefore, IsRest.of_append (.inr ⟨more, hmore.symm⟩)⟩
    · -- the last dot cannot stand inside the package
      cases rest with
      | nil => exact .inr ⟨[], by simpa using hpackage.symm, .inl rfl⟩
      | cons c others =>
        rw [(List.cons.inj hmore).2] at hafter
        simp at hafter

/-! ## Packages that may hold accepted classes -/

/-- A package that is accepted is one that every package above it may hold. -/
theorem NameFilter.packageMayContainAccepted_of_accepted {f : NameFilter} {package top : String}
    (h : f.packageAccepted package) (hwithin : withinPackage package top) :
    f.packageMayContainAccepted top := by
  unfold packageAccepted at h
  unfold packageMayContainAccepted
  rw [Bool.and_eq_true, Bool.not_eq_true', Bool.or_eq_true] at *
  obtain ⟨hrejects, haccepts⟩ := h
  refine ⟨?_, haccepts.imp_right fun h => ?_⟩
  · -- a rejection of the upper package is one of the lower package
    rw [rejectsPackage, List.any_eq_false] at *
    intro rejected hmem htop
    exact hrejects rejected hmem (withinPackage_trans hwithin htop)
  · rw [List.any_eq_true] at *
    obtain ⟨accepted, hmem, haccepted⟩ := h
    refine ⟨accepted, hmem, ?_⟩
    rw [Bool.or_eq_true]
    exact withinPackage_or_withinPackage hwithin haccepted

end ClassAtlas
