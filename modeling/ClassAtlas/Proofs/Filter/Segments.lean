-- Packages as lists of segments. A filter compares the texts of names and looks at one character
-- behind the shorter one. That tells whether whole segments agree, the empty ones included.
import ClassAtlas.Proofs.Filter.Packages

namespace ClassAtlas

/-! ## Segments of a name -/

namespace Name

/-- What stands between the dots of a name. The empty name has one segment, which is empty. -/
def segments (name : String) : List String := (Text.splitAt '.' name.toList).map String.ofList

/-- The package `top` is the empty one, or its segments are the first ones of `parts`. -/
def Heads (top : String) (parts : List String) : Prop := top = "" ∨ segments top <+: parts

instance (top : String) (parts : List String) : Decidable (Heads top parts) :=
  inferInstanceAs (Decidable (_ ∨ _))

theorem segments_ne_nil (name : String) : segments name ≠ [] := by
  unfold segments
  simpa using Text.splitAt_ne_nil '.' name.toList

theorem segments_isPrefix_iff {top name : String} : segments top <+: segments name ↔
    ∃ rest, name.toList = top.toList ++ rest ∧ IsRest rest := by
  have hofList : Function.Injective String.ofList := fun _ _ => String.ofList_injective
  unfold segments
  rw [List.prefix_map_iff_of_injective hofList, Text.splitAt_isPrefix_iff]
  constructor
  · rintro (h | ⟨more, h⟩)
    · exact ⟨[], by simpa using h, .inl rfl⟩
    · exact ⟨'.' :: more, h, .inr ⟨more, rfl⟩⟩
  · rintro ⟨rest, h, rfl | ⟨more, rfl⟩⟩
    · exact .inl (by simpa using h)
    · exact .inr ⟨more, h⟩

theorem heads_nil_iff {top : String} : Heads top [] ↔ top = "" := by
  unfold Heads
  rw [List.prefix_nil, or_iff_left (segments_ne_nil top)]

theorem heads_segments_empty_iff {top : String} : Heads top (segments "") ↔ top = "" := by
  unfold Heads
  rw [segments_isPrefix_iff, or_iff_left_iff_imp]
  rintro ⟨rest, h, -⟩
  exact String.toList_eq_nil_iff.mp (List.append_eq_nil_iff.mp h.symm).1

/-- The package of a class has the segments of the class but for the last one. Of a class without a
dot nothing is left, while its package still has the empty segment: only the empty package heads
either. -/
theorem heads_package_iff {top name : String} :
    Heads top (segments (package name)) ↔ Heads top (segments name).dropLast := by
  unfold package
  cases hsplit : Text.splitLast? '.' name.toList with
  | none =>
    have hlast : (segments name).dropLast = [] := by
      unfold segments
      rw [Text.splitAt_of_notMem (Text.splitLast?_eq_none hsplit)]
      rfl
    rw [hlast, heads_nil_iff]
    exact heads_segments_empty_iff
  | some parts =>
    obtain ⟨before, after⟩ := parts
    obtain ⟨hname, hafter⟩ := Text.splitLast?_eq_some hsplit
    have hlast : (segments name).dropLast = segments (String.ofList before) := by
      unfold segments
      rw [hname, Text.splitAt_append, Text.splitAt_of_notMem hafter, String.toList_ofList,
        List.map_append]
      exact List.dropLast_concat
    rw [hlast]

end Name

open Name (segments Heads)
open PackagePattern (normalize)

theorem withinPackage_iff_heads {package top : String} :
    withinPackage package top = true ↔ Heads top (segments package) :=
  withinPackage_iff.trans (or_congr_right Name.segments_isPrefix_iff.symm)

/-! ## Filters by segments -/

namespace NameFilter

variable {f : NameFilter}

/-- A rejection wins over an acceptance, and no acceptance at all accepts everything. -/
theorem takes_iff {package : String} {accepts : String → Bool} :
    (!f.rejectsPackage package &&
      (f.acceptPackages.isEmpty || f.acceptPackages.any accepts)) = true ↔
        (∀ top ∈ f.rejectPackages, ¬ Heads top (segments package)) ∧
          (f.acceptPackages = [] ∨ ∃ top ∈ f.acceptPackages, accepts top = true) := by
  unfold rejectsPackage
  rw [Bool.and_eq_true, Bool.not_eq_true', List.any_eq_false, Bool.or_eq_true, List.isEmpty_iff,
    List.any_eq_true]
  simp only [withinPackage_iff_heads]

theorem packageAccepted_iff {package : String} : f.packageAccepted package = true ↔
    (∀ top ∈ f.rejectPackages, ¬ Heads top (segments package)) ∧
      (f.acceptPackages = [] ∨ ∃ top ∈ f.acceptPackages, Heads top (segments package)) := by
  unfold packageAccepted
  rw [takes_iff]
  simp only [withinPackage_iff_heads]

theorem classAccepted_iff {name : String} : f.classAccepted name = true ↔
    (∀ top ∈ f.rejectPackages, ¬ Heads top (segments name).dropLast) ∧
      (f.acceptPackages = [] ∨ ∃ top ∈ f.acceptPackages, Heads top (segments name).dropLast) := by
  unfold classAccepted
  simp only [packageAccepted_iff, Name.heads_package_iff]

theorem packageMayContainAccepted_iff {package : String} :
    f.packageMayContainAccepted package = true ↔
      (∀ top ∈ f.rejectPackages, ¬ Heads top (segments package)) ∧
        (f.acceptPackages = [] ∨ ∃ top ∈ f.acceptPackages,
          Heads top (segments package) ∨ Heads package (segments top)) := by
  unfold packageMayContainAccepted
  rw [takes_iff]
  simp only [Bool.or_eq_true, withinPackage_iff_heads]

/-- For all patterns, a filter goes by whole segments. It accepts a package exactly if no pattern to
reject names the empty package or one whose segments are the first ones of the package, and some
pattern to accept does, unless there is none. The segments in front of its last one say the same of
a class. Whether a package may hold accepted classes is told like this as well, but a pattern to
accept may also name a package that has the segments of this one in front. -/
theorem packages_are_taken_in_by_whole_segments
    (accept reject acceptArchives rejectArchives : List String) :
    (∀ package,
      (ofPatterns accept reject acceptArchives rejectArchives).packageAccepted package = true ↔
        (∀ pattern ∈ reject, ¬ Heads (normalize pattern) (segments package)) ∧
          (accept = [] ∨ ∃ pattern ∈ accept, Heads (normalize pattern) (segments package))) ∧
    (∀ name,
      (ofPatterns accept reject acceptArchives rejectArchives).classAccepted name = true ↔
        (∀ pattern ∈ reject, ¬ Heads (normalize pattern) (segments name).dropLast) ∧
          (accept = [] ∨
            ∃ pattern ∈ accept, Heads (normalize pattern) (segments name).dropLast)) ∧
    ∀ package,
      (ofPatterns accept reject acceptArchives rejectArchives).packageMayContainAccepted package =
          true ↔
        (∀ pattern ∈ reject, ¬ Heads (normalize pattern) (segments package)) ∧
          (accept = [] ∨ ∃ pattern ∈ accept, Heads (normalize pattern) (segments package) ∨
            Heads package (segments (normalize pattern))) := by
  generalize hf : ofPatterns accept reject acceptArchives rejectArchives = f
  have haccept : f.acceptPackages = accept.map normalize := hf ▸ rfl
  have hreject : f.rejectPackages = reject.map normalize := hf ▸ rfl
  have hall : ∀ p : String → Prop,
      (∀ top ∈ f.rejectPackages, p top) ↔ ∀ pattern ∈ reject, p (normalize pattern) := by
    intro p
    rw [hreject]
    exact List.forall_mem_map
  have hany : ∀ p : String → Prop,
      (∃ top ∈ f.acceptPackages, p top) ↔ ∃ pattern ∈ accept, p (normalize pattern) := by
    intro p
    simp only [haccept, List.mem_map, exists_exists_and_eq_and]
  have hnone : f.acceptPackages = [] ↔ accept = [] := by
    rw [haccept]
    exact List.map_eq_nil_iff
  refine ⟨fun package => ?_, fun name => ?_, fun package => ?_⟩
  · rw [packageAccepted_iff, hall, hany, hnone]
  · rw [classAccepted_iff, hall, hany, hnone]
  · rw [packageMayContainAccepted_iff, hall, hany, hnone]

/-- Two dots have an empty segment between them. A letter of two bytes ends no segment. -/
theorem a_package_with_an_empty_segment_is_taken_in :
    let f := ofPatterns [" com/äcme.* "] ["com.äcme..x."] [] []
    f.packageAccepted "com.äcme..y" = true ∧ f.packageAccepted "com.äcmeé" = false ∧
      f.packageAccepted "com.äcme..x.deep" = false ∧ f.classAccepted "com.äcme.Crate" = true ∧
      f.classAccepted "Crate" = false ∧ f.packageMayContainAccepted "" = true ∧
      f.packageMayContainAccepted "com.ä" = false := by
  intro f
  obtain ⟨hpackage, hclass, hmay⟩ :=
    packages_are_taken_in_by_whole_segments [" com/äcme.* "] ["com.äcme..x."] [] []
  refine ⟨(hpackage _).mpr ?_, Bool.eq_false_iff.mpr (mt (hpackage _).mp ?_),
    Bool.eq_false_iff.mpr (mt (hpackage _).mp ?_), (hclass _).mpr ?_,
    Bool.eq_false_iff.mpr (mt (hclass _).mp ?_), (hmay _).mpr ?_,
    Bool.eq_false_iff.mpr (mt (hmay _).mp ?_)⟩
  all_goals decide +kernel

end NameFilter

end ClassAtlas
