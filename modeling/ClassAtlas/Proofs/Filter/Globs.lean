-- Patterns for file names, told without regular expressions. A search for the expression of a
-- pattern finds exactly the names that the pattern covers from one end to the other.
import ClassAtlas.Filter
import ClassAtlas.Proofs.Text.Regex
import Mathlib.Logic.Basic

namespace ClassAtlas

namespace Glob

/-! ## What a pattern covers -/

/-- A pattern covers a text from its start to its end. -/
inductive Covers : List Char → List Char → Prop
  | nil : Covers [] []
  | anyRun {run pattern text : List Char} : (∀ c ∈ run, c ≠ '\n') → Covers pattern text →
      Covers ('*' :: pattern) (run ++ text)
  | anyOne {c : Char} {pattern text : List Char} : c ≠ '\n' → Covers pattern text →
      Covers ('?' :: pattern) (c :: text)
  | itself {c : Char} {pattern text : List Char} : c ≠ '*' → c ≠ '?' → Covers pattern text →
      Covers (c :: pattern) (c :: text)

section

variable {c : Char} {pattern text : List Char}

theorem covers_nil_iff : Covers [] text ↔ text = [] := by
  constructor
  · intro h
    cases h
    rfl
  · rintro rfl
    exact .nil

theorem covers_star_iff : Covers ('*' :: pattern) text ↔
    ∃ run rest, text = run ++ rest ∧ (∀ c ∈ run, c ≠ '\n') ∧ Covers pattern rest := by
  constructor
  · intro h
    cases h with
    | anyRun hrun h => exact ⟨_, _, rfl, hrun, h⟩
    | itself hstar => exact absurd rfl hstar
  · rintro ⟨run, rest, rfl, hrun, h⟩
    exact .anyRun hrun h

theorem covers_question_iff : Covers ('?' :: pattern) text ↔
    ∃ c rest, text = c :: rest ∧ c ≠ '\n' ∧ Covers pattern rest := by
  constructor
  · intro h
    cases h with
    | anyOne hc h => exact ⟨_, _, rfl, hc, h⟩
    | itself _ hquestion => exact absurd rfl hquestion
  · rintro ⟨c, rest, rfl, hc, h⟩
    exact .anyOne hc h

theorem covers_other_iff (hstar : c ≠ '*') (hquestion : c ≠ '?') :
    Covers (c :: pattern) text ↔ ∃ rest, text = c :: rest ∧ Covers pattern rest := by
  constructor
  · intro h
    cases h with
    | anyRun => exact absurd rfl hstar
    | anyOne => exact absurd rfl hquestion
    | itself _ _ h => exact ⟨_, rfl, h⟩
  · rintro ⟨rest, rfl, h⟩
    exact .itself hstar hquestion h

end

/-! ## The expression of a pattern -/

/-- What a character of a pattern stands for. -/
def item (c : Char) : RegexItem :=
  if c = '*' then .many .any else if c = '?' then .one .any else .one (.exactly c)

theorem next?_of_not_meta {c : Char} (h : Regex.isMeta c = false) (items : List RegexItem) :
    Regex.Reading.next? ⟨items, false⟩ c = some ⟨.one (.exactly c) :: items, false⟩ := by
  unfold Regex.Reading.next?
  dsimp only
  rw [if_neg Bool.false_ne_true]
  split
  · exact absurd h (by decide)
  · exact absurd h (by decide)
  · exact absurd h (by decide)
  · exact absurd h (by decide)
  · exact absurd h (by decide)
  · rw [h, if_neg Bool.false_ne_true]

/-- A character that is escaped is read as itself. -/
theorem foldlM_escape (c : Char) (items : List RegexItem) :
    (Regex.escape c).foldlM Regex.Reading.next? ⟨items, false⟩ =
      some ⟨.one (.exactly c) :: items, false⟩ := by
  unfold Regex.escape
  cases hmeta : Regex.isMeta c with
  | true => simp [Regex.Reading.next?, hmeta]
  | false => simp [next?_of_not_meta hmeta]

theorem foldlM_expressionOf (c : Char) (items : List RegexItem) :
    (expressionOf c).foldlM Regex.Reading.next? ⟨items, false⟩ = some ⟨item c :: items, false⟩ := by
  unfold expressionOf item
  by_cases hstar : c = '*'
  · rw [if_pos hstar, if_pos hstar]
    rfl
  rw [if_neg hstar, if_neg hstar]
  by_cases hquestion : c = '?'
  · rw [if_pos hquestion, if_pos hquestion]
    rfl
  rw [if_neg hquestion, if_neg hquestion]
  exact foldlM_escape c items

theorem foldlM_expressions (pattern : List Char) (items : List RegexItem) :
    (pattern.flatMap expressionOf).foldlM Regex.Reading.next? ⟨items, false⟩ =
      some ⟨(pattern.map item).reverse ++ items, false⟩ := by
  induction pattern generalizing items with
  | nil => rfl
  | cons c pattern ih =>
    rw [List.flatMap_cons, List.foldlM_append, foldlM_expressionOf]
    simpa using ih (item c :: items)

theorem read?_expression (g : Glob) : Regex.read? g.expression.toList =
    some (.atStart :: (g.pattern.toList.map item ++ [.atEnd])) := by
  have hstart : Regex.Reading.next? ⟨[], false⟩ '^' = some ⟨[.atStart], false⟩ := rfl
  have hend : ∀ items, Regex.Reading.next? ⟨items, false⟩ '$' = some ⟨.atEnd :: items, false⟩ :=
    fun _ => rfl
  unfold Regex.read? expression
  simp [List.foldlM_append, hstart, foldlM_expressions, hend]

example : (Glob.mk "lib[1]?*.jar").expression = "^lib\\[1\\]..*\\.jar$" := by decide +kernel

/-- An expression of such items that reaches to the end of a text covers all of it. -/
theorem matches_items_iff {pattern before text : List Char} :
    Regex.Matches (pattern.map item ++ [.atEnd]) before text ↔ Covers pattern text := by
  induction pattern generalizing before text with
  | nil =>
    rw [covers_nil_iff]
    exact Regex.matches_atEnd_iff.trans (and_iff_left .nil)
  | cons c pattern ih =>
    rw [List.map_cons, List.cons_append]
    by_cases hstar : c = '*'
    · subst hstar
      rw [covers_star_iff]
      refine Regex.matches_many_iff.trans ?_
      simp only [ih, CharClass.covers, bne_iff_ne]
    by_cases hquestion : c = '?'
    · subst hquestion
      rw [covers_question_iff]
      refine Regex.matches_one_iff.trans ?_
      simp only [ih, CharClass.covers, bne_iff_ne]
    · have hitem : item c = .one (.exactly c) := by simp [item, hstar, hquestion]
      rw [covers_other_iff hstar hquestion, hitem, Regex.matches_one_iff]
      simp only [ih, CharClass.covers, beq_iff_eq]
      constructor
      · rintro ⟨d, rest, rfl, rfl, h⟩
        exact ⟨rest, rfl, h⟩
      · rintro ⟨rest, rfl, h⟩
        exact ⟨c, rest, rfl, rfl, h⟩

/-- The mark for the start holds the match fast at the start of the name. -/
theorem search_expression_iff {search : String → String → Bool} (hsearch : Regex.IsSearch search)
    (g : Glob) (name : String) :
    search g.expression name = true ↔ Covers g.pattern.toList name.toList := by
  rw [hsearch _ _ _ (read?_expression g)]
  simp only [Regex.matches_atStart_iff, matches_items_iff]
  constructor
  · rintro ⟨before, after, hname, rfl, h⟩
    rwa [hname]
  · exact fun h => ⟨[], name.toList, rfl, rfl, h⟩

end Glob

/-! ## Filters of archives -/

namespace NameFilter

theorem archiveAcceptedWith_iff {search : String → String → Bool} (hsearch : Regex.IsSearch search)
    (f : NameFilter) (fileName : String) : f.archiveAcceptedWith search fileName = true ↔
      (∀ g ∈ f.rejectArchives, ¬ Glob.Covers g.pattern.toList fileName.toList) ∧
        (f.acceptArchives = [] ∨
          ∃ g ∈ f.acceptArchives, Glob.Covers g.pattern.toList fileName.toList) := by
  unfold archiveAcceptedWith
  rw [Bool.and_eq_true, Bool.not_eq_true', List.any_eq_false, Bool.or_eq_true, List.isEmpty_iff,
    List.any_eq_true]
  simp only [Glob.search_expression_iff hsearch]

/-- For all patterns, all names and every search for regular expressions: the search of this library
answers alike, and an archive is taken in if no rejected pattern covers its whole name and, where
patterns are accepted at all, one of them does. -/
theorem archives_are_taken_in_by_their_whole_names {search : String → String → Bool}
    (hsearch : Regex.IsSearch search)
    (acceptPackages rejectPackages acceptArchives rejectArchives : List String)
    (fileName : String) :
    let f := ofPatterns acceptPackages rejectPackages acceptArchives rejectArchives
    f.archiveAccepted fileName = f.archiveAcceptedWith search fileName ∧
    (f.archiveAcceptedWith search fileName = true ↔
      (∀ pattern ∈ rejectArchives, ¬ Glob.Covers pattern.toList fileName.toList) ∧
        (acceptArchives = [] ∨
          ∃ pattern ∈ acceptArchives, Glob.Covers pattern.toList fileName.toList)) := by
  intro f
  constructor
  · rw [Bool.eq_iff_iff, archiveAcceptedWith_iff hsearch]
    exact archiveAcceptedWith_iff Regex.isSearch_search f fileName
  · rw [archiveAcceptedWith_iff hsearch]
    simp only [f, ofPatterns, List.map_eq_nil_iff, List.mem_map, exists_exists_and_eq_and,
      forall_exists_index, and_imp, forall_apply_eq_imp_iff₂]

/-- Brackets and dots stand for themselves, so an archive that a range of characters would take in
is not rejected. -/
theorem a_bracket_in_a_pattern_stands_for_itself :
    Regex.IsSearch Regex.search ∧
      (ofPatterns [] [] ["*.j?r"] ["lib[1]*"]).archiveAccepted "lib1.é.jar" = true ∧
      (∀ pattern ∈ ["lib[1]*"], ¬ Glob.Covers pattern.toList "lib1.é.jar".toList) ∧
      ∃ pattern ∈ ["*.j?r"], Glob.Covers pattern.toList "lib1.é.jar".toList := by
  have haccepted : (ofPatterns [] [] ["*.j?r"] ["lib[1]*"]).archiveAccepted "lib1.é.jar" = true := by
    decide +kernel
  obtain ⟨hreject, haccept⟩ := (archives_are_taken_in_by_their_whole_names Regex.isSearch_search
    [] [] ["*.j?r"] ["lib[1]*"] "lib1.é.jar").2.mp haccepted
  exact ⟨Regex.isSearch_search, haccepted, hreject, haccept.resolve_left (by simp)⟩

end NameFilter

end ClassAtlas
