-- Slashes in the patterns of packages. They count as dots, but only once the end of a pattern has
-- been taken off, so a slash at the end stays where a dot would go. A pattern that ends so names a
-- package that no class is in.
import ClassAtlas.Proofs.Filter.Packages

namespace ClassAtlas

/-! ## The end of a pattern -/

namespace PackagePattern

/-- A character, with a dot for a slash. -/
def dotFor (c : Char) : Char := if c = '/' then '.' else c

/-- What a text read from its end keeps of itself: neither pairs `.*` nor dots at that end. -/
def left (reversed : List Char) : List Char := (dropStars reversed).dropWhile (· = '.')

/-- A text read from its end has dots and then a slash. -/
inductive SlashUnderDots : List Char → Prop
  | slash {rest : List Char} : SlashUnderDots ('/' :: rest)
  | dot {rest : List Char} : SlashUnderDots rest → SlashUnderDots ('.' :: rest)

/-- A slash that stays at the end of a text where a dot would be taken off. -/
def LeavesSlash (reversed : List Char) : Prop :=
  SlashUnderDots (dropStars reversed) ∨ ∃ rest, dropStars reversed = '*' :: '/' :: rest

/-- Without the blanks around it and the pairs `.*` at its end, a pattern has a slash behind which
there is a star alone, or nothing but dots. -/
def EndsInSlash (pattern : String) : Prop :=
  ∃ front tail, (dropStars (Text.trimmed pattern.toList).reverse).reverse = front ++ '/' :: tail ∧
    (tail = ['*'] ∨ ∀ c ∈ tail, c = '.')

theorem slashUnderDots_iff {text : List Char} :
    SlashUnderDots text ↔ ∃ dots rest, text = dots ++ '/' :: rest ∧ ∀ c ∈ dots, c = '.' := by
  constructor
  · intro h
    induction h with
    | @slash rest => exact ⟨[], rest, rfl, by simp⟩
    | dot _ ih =>
      obtain ⟨dots, rest, rfl, hdots⟩ := ih
      exact ⟨'.' :: dots, rest, rfl, by simpa using hdots⟩
  · rintro ⟨dots, rest, rfl, hdots⟩
    induction dots with
    | nil => exact .slash
    | cons c dots ih =>
      obtain ⟨rfl, hrest⟩ := List.forall_mem_cons.mp hdots
      exact .dot (ih hrest)

theorem endsInSlash_iff {pattern : String} :
    EndsInSlash pattern ↔ LeavesSlash (Text.trimmed pattern.toList).reverse := by
  unfold EndsInSlash LeavesSlash
  rw [slashUnderDots_iff]
  constructor
  · rintro ⟨front, tail, htext, rfl | htail⟩
    · exact .inr ⟨front.reverse, by simpa using congrArg List.reverse htext⟩
    · exact .inl ⟨tail.reverse, front.reverse, by simpa using congrArg List.reverse htext,
        by simpa using htail⟩
  · rintro (⟨dots, rest, htext, hdots⟩ | ⟨rest, htext⟩)
    · exact ⟨rest.reverse, dots.reverse, by simp [htext], .inr (by simpa using hdots)⟩
    · exact ⟨rest.reverse, ['*'], by simp [htext], .inl rfl⟩

/-! ## Stars and dots -/

theorem dropStars_of_ne {text : List Char} (h : ∀ rest, text ≠ '*' :: '.' :: rest) :
    dropStars text = text := by
  fun_cases dropStars text with
  | case1 rest => exact absurd rfl (h rest)
  | case2 => rfl

theorem dropStars_ne (text rest : List Char) : dropStars text ≠ '*' :: '.' :: rest := by
  fun_induction dropStars text with
  | case1 _ ih => exact ih
  | case2 text h => exact h rest

theorem suffix_dropStars (text : List Char) : dropStars text <:+ text := by
  fun_induction dropStars text with
  | case1 rest ih => exact (ih.trans (List.suffix_cons '.' rest)).trans (List.suffix_cons '*' _)
  | case2 => exact List.suffix_refl _

theorem suffix_left (text : List Char) : left text <:+ text :=
  (List.dropWhile_suffix _).trans (suffix_dropStars text)

theorem dropStars_map_dropStars (text : List Char) :
    dropStars ((dropStars text).map dotFor) = dropStars (text.map dotFor) := by
  fun_induction dropStars text with
  | case1 rest ih => exact ih
  | case2 => rfl

theorem dotFor_of_ne {c : Char} (h : c ≠ '/') : dotFor c = c := if_neg h

theorem dotFor_eq_dot_iff {c : Char} : dotFor c = '.' ↔ c = '.' ∨ c = '/' := by
  unfold dotFor
  split <;> simp_all

theorem dotFor_eq_star_iff {c : Char} : dotFor c = '*' ↔ c = '*' := by
  unfold dotFor
  split <;> simp_all

/-- Dots for slashes make a new pair only of a star behind a slash. -/
theorem dropStars_map_of_ne {text : List Char} (h : ∀ rest, text ≠ '*' :: '.' :: rest)
    (hslash : ∀ rest, text ≠ '*' :: '/' :: rest) :
    dropStars (text.map dotFor) = text.map dotFor := by
  apply dropStars_of_ne
  intro rest hpair
  obtain ⟨star, more, rfl, hstar, hmore⟩ := List.map_eq_cons_iff.mp hpair
  obtain ⟨dot, front, rfl, hdot, rfl⟩ := List.map_eq_cons_iff.mp hmore
  obtain rfl := dotFor_eq_star_iff.mp hstar
  rcases dotFor_eq_dot_iff.mp hdot with rfl | rfl
  · exact h front rfl
  · exact hslash front rfl

theorem dropWhile_map_of_not {text : List Char} (h : ¬ SlashUnderDots text) :
    (text.map dotFor).dropWhile (· = '.') = (text.dropWhile (· = '.')).map dotFor := by
  induction text with
  | nil => rfl
  | cons c rest ih =>
    have hslash : c ≠ '/' := by
      rintro rfl
      exact h .slash
    rw [List.map_cons, dotFor_of_ne hslash]
    by_cases hdot : c = '.'
    · subst hdot
      exact ih fun hrest => h (.dot hrest)
    · rw [List.dropWhile_cons_of_neg (by simpa using hdot),
        List.dropWhile_cons_of_neg (by simpa using hdot), List.map_cons, dotFor_of_ne hslash]

theorem length_dropWhile_map_lt {text : List Char} (h : SlashUnderDots text) :
    ((text.map dotFor).dropWhile (· = '.')).length < (text.dropWhile (· = '.')).length := by
  induction h with
  | @slash rest =>
    calc ((List.map dotFor ('/' :: rest)).dropWhile (· = '.')).length
      _ = ((rest.map dotFor).dropWhile (· = '.')).length := rfl
      _ ≤ (rest.map dotFor).length := (List.dropWhile_suffix _).length_le
      _ = rest.length := List.length_map _
      _ < ('/' :: rest).length := Nat.lt_succ_self _
  | dot _ ih => exact ih

/-! ## What is left -/

theorem left_map_of_not {text : List Char} (h : ¬ LeavesSlash text) :
    left (text.map dotFor) = (left text).map dotFor := by
  obtain ⟨hdots, hstar⟩ := not_or.mp h
  unfold left
  rw [← dropStars_map_dropStars, dropStars_map_of_ne (dropStars_ne text)
    fun rest heq => hstar ⟨rest, heq⟩, dropWhile_map_of_not hdots]

theorem length_left_map_lt {text : List Char} (h : LeavesSlash text) :
    (left (text.map dotFor)).length < (left text).length := by
  unfold left
  rw [← dropStars_map_dropStars]
  rcases h with hdots | ⟨rest, hstar⟩
  · have hplain : dropStars ((dropStars text).map dotFor) = (dropStars text).map dotFor := by
      refine dropStars_map_of_ne (dropStars_ne text) fun rest heq => ?_
      rw [heq] at hdots
      cases hdots
    rw [hplain]
    exact length_dropWhile_map_lt hdots
  · -- the star and the slash are taken off as a pair
    rw [hstar]
    calc (left (List.map dotFor ('*' :: '/' :: rest))).length
      _ = (left (rest.map dotFor)).length := rfl
      _ ≤ (rest.map dotFor).length := (suffix_left _).length_le
      _ = rest.length := List.length_map _
      _ < ('*' :: '/' :: rest).length := Nat.lt_add_of_pos_right (Nat.succ_pos 1)

/-! ## Patterns with dots -/

theorem isBlank_dotFor (c : Char) : Text.isBlank (dotFor c) = Text.isBlank c := by
  by_cases h : c = '/'
  · subst h
    rfl
  · rw [dotFor_of_ne h]

theorem trimmed_map (text : List Char) :
    Text.trimmed (text.map dotFor) = (Text.trimmed text).map dotFor := by
  have hblank : Text.isBlank ∘ dotFor = Text.isBlank := funext isBlank_dotFor
  unfold Text.trimmed Text.dropEndWhile
  rw [List.dropWhile_map, hblank, ← List.map_reverse, List.dropWhile_map, hblank,
    List.map_reverse]

theorem map_left_map (text : List Char) :
    (left (text.map dotFor)).map dotFor = left (text.map dotFor) := by
  conv_rhs => rw [← List.map_id (left (text.map dotFor))]
  refine List.map_congr_left fun c hc => dotFor_of_ne ?_
  obtain ⟨d, _, rfl⟩ := List.mem_map.mp ((suffix_left _).subset hc)
  unfold dotFor
  split
  · decide
  · assumption

theorem toList_normalize (pattern : String) : (normalize pattern).toList =
    ((left (Text.trimmed pattern.toList).reverse).map dotFor).reverse := by
  unfold normalize Text.replaceChar Text.dropEndWhile
  rw [String.toList_ofList, String.toList_ofList, List.reverse_reverse, List.map_reverse]
  rfl

theorem toList_dotted (pattern : String) :
    (Name.dotted pattern).toList = pattern.toList.map dotFor := String.toList_ofList

theorem toList_normalize_dotted (pattern : String) : (normalize (Name.dotted pattern)).toList =
    (left ((Text.trimmed pattern.toList).reverse.map dotFor)).reverse := by
  have hreverse : ((Text.trimmed pattern.toList).map dotFor).reverse =
      (Text.trimmed pattern.toList).reverse.map dotFor := List.map_reverse.symm
  rw [toList_normalize, toList_dotted, trimmed_map, hreverse, map_left_map]

/-- A pattern names the same package with dots, unless it ends in a slash. -/
theorem normalize_dotted {pattern : String} (h : ¬ EndsInSlash pattern) :
    normalize (Name.dotted pattern) = normalize pattern := by
  apply String.toList_injective
  rw [toList_normalize_dotted, toList_normalize, left_map_of_not (mt endsInSlash_iff.mpr h)]

theorem length_normalize_dotted_lt {pattern : String} (h : EndsInSlash pattern) :
    (normalize (Name.dotted pattern)).toList.length < (normalize pattern).toList.length := by
  rw [toList_normalize_dotted, toList_normalize, List.length_reverse, List.length_reverse,
    List.length_map]
  exact length_left_map_lt (endsInSlash_iff.mp h)

end PackagePattern

/-! ## Filters -/

namespace NameFilter

theorem map_normalize_dotted {patterns : List String}
    (h : ∀ pattern ∈ patterns, ¬ PackagePattern.EndsInSlash pattern) :
    (patterns.map Name.dotted).map PackagePattern.normalize =
      patterns.map PackagePattern.normalize := by
  rw [List.map_map]
  exact List.map_congr_left fun pattern hpattern =>
    PackagePattern.normalize_dotted (h pattern hpattern)

/-- A filter with one pattern takes in what lies within the package that the pattern names. -/
theorem packageAccepted_one (pattern package : String) :
    (ofPatterns [pattern] [] [] []).packageAccepted package =
      withinPackage package (PackagePattern.normalize pattern) := by
  simp [packageAccepted, rejectsPackage, ofPatterns]

/-- For all patterns of packages that do not end in a slash, dots for the slashes in them change
nothing about the packages and classes that are taken in, nor about the packages that may hold such
classes. For each other pattern they do: there is a package that is accepted by one of the two and
not by the other. -/
theorem slashes_are_dots_but_at_the_end (accept reject acceptArchives rejectArchives : List String)
    (h : ∀ pattern ∈ accept ++ reject, ¬ PackagePattern.EndsInSlash pattern) :
    let slashed := ofPatterns accept reject acceptArchives rejectArchives
    let dotted := ofPatterns (accept.map Name.dotted) (reject.map Name.dotted) acceptArchives
      rejectArchives
    (∀ package, dotted.packageAccepted package = slashed.packageAccepted package) ∧
    (∀ name, dotted.classAccepted name = slashed.classAccepted name) ∧
    (∀ package,
      dotted.packageMayContainAccepted package = slashed.packageMayContainAccepted package) ∧
    ∀ pattern, PackagePattern.EndsInSlash pattern → ∃ package,
      (ofPatterns [Name.dotted pattern] [] [] []).packageAccepted package = true ∧
        (ofPatterns [pattern] [] [] []).packageAccepted package = false := by
  intro slashed dotted
  have hsame : dotted = slashed := by
    unfold dotted slashed ofPatterns
    rw [map_normalize_dotted fun pattern hpattern => h pattern (List.mem_append_left _ hpattern),
      map_normalize_dotted fun pattern hpattern => h pattern (List.mem_append_right _ hpattern)]
  rw [hsame]
  refine ⟨fun _ => rfl, fun _ => rfl, fun _ => rfl, fun pattern hslash => ?_⟩
  refine ⟨PackagePattern.normalize (Name.dotted pattern), ?_, ?_⟩
  · rw [packageAccepted_one]
    exact withinPackage_self _
  · rw [packageAccepted_one]
    exact not_withinPackage_of_length (PackagePattern.length_normalize_dotted_lt hslash)

/-- Blanks and a star below a package do no harm, and a slash in front counts as a dot as well. -/
theorem a_slashed_pattern_rejects_what_a_dotted_one_does :
    let accept := ["com/acme", "/org"]
    let reject := [" com/acme/internal.* "]
    (∀ pattern ∈ accept ++ reject, ¬ PackagePattern.EndsInSlash pattern) ∧
      (ofPatterns accept reject [] []).packageAccepted "com.acme.util" = true ∧
      ∀ package, (ofPatterns (accept.map Name.dotted) (reject.map Name.dotted) [] []).packageAccepted
        package = (ofPatterns accept reject [] []).packageAccepted package := by
  intro accept reject
  have hpatterns : ∀ pattern ∈ accept ++ reject, ¬ PackagePattern.EndsInSlash pattern := by
    have hsame : ∀ pattern ∈ accept ++ reject,
        PackagePattern.normalize (Name.dotted pattern) = PackagePattern.normalize pattern := by
      decide +kernel
    intro pattern hpattern hslash
    have hlength := PackagePattern.length_normalize_dotted_lt hslash
    rw [hsame pattern hpattern] at hlength
    exact Nat.lt_irrefl _ hlength
  exact ⟨hpatterns, by decide +kernel,
    (slashes_are_dots_but_at_the_end accept reject [] [] hpatterns).1⟩

/-- With dots the pattern names a package, and with slashes none: the star stays behind a dot. -/
theorem a_star_behind_a_slash_names_no_package :
    let patterns := ["com/acme/*"]
    let slashed := ofPatterns patterns [] [] []
    let dotted := ofPatterns (patterns.map Name.dotted) [] [] []
    dotted.packageAccepted "com.acme.util" = true ∧
      slashed.packageAccepted "com.acme.util" = false ∧
      dotted.classAccepted "com.acme.Crate" = true ∧ slashed.classAccepted "com.acme.Crate" = false ∧
      dotted.packageMayContainAccepted "com.acme.util" = true ∧
      slashed.packageMayContainAccepted "com.acme.util" = false := by
  decide +kernel

end NameFilter

end ClassAtlas
