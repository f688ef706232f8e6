-- What regular expressions say of a text, and that a search tells it. An expression is judged at a
-- place of the text, by what stands before that place and by what stands after it.
import ClassAtlas.Text.Regex

namespace ClassAtlas.Regex

/-! ## Matches -/

/-- An expression matches at the place between `before` and `after`. Where the match ends is not
told. -/
inductive Matches : Regex → List Char → List Char → Prop
  | nil {before after : List Char} : Matches [] before after
  | atStart {items : Regex} {after : List Char} : Matches items [] after →
      Matches (.atStart :: items) [] after
  | atEnd {items : Regex} {before : List Char} : Matches items before [] →
      Matches (.atEnd :: items) before []
  | one {k : CharClass} {c : Char} {items : Regex} {before after : List Char} : k.covers c →
      Matches items (before ++ [c]) after → Matches (.one k :: items) before (c :: after)
  | stop {k : CharClass} {items : Regex} {before after : List Char} : Matches items before after →
      Matches (.many k :: items) before after
  | more {k : CharClass} {c : Char} {items : Regex} {before after : List Char} : k.covers c →
      Matches (.many k :: items) (before ++ [c]) after →
      Matches (.many k :: items) before (c :: after)

/-- Somewhere in every text `search` finds the expressions that match there, and no others. -/
def IsSearch (search : String → String → Bool) : Prop :=
  ∀ (expression text : String) (items : Regex), read? expression.toList = some items →
    (search expression text = true ↔
      ∃ before after, text.toList = before ++ after ∧ Matches items before after)

section

variable {k : CharClass} {c : Char} {items : Regex} {before after : List Char}

theorem matches_atStart_iff :
    Matches (.atStart :: items) before after ↔ before = [] ∧ Matches items before after := by
  constructor
  · rintro (_ | h)
    exact ⟨rfl, h⟩
  · rintro ⟨rfl, h⟩
    exact .atStart h

theorem matches_atEnd_iff :
    Matches (.atEnd :: items) before after ↔ after = [] ∧ Matches items before after := by
  constructor
  · rintro (_ | _ | h)
    exact ⟨rfl, h⟩
  · rintro ⟨rfl, h⟩
    exact .atEnd h

theorem matches_one_iff : Matches (.one k :: items) before after ↔
    ∃ c rest, after = c :: rest ∧ k.covers c ∧ Matches items (before ++ [c]) rest := by
  constructor
  · intro h
    cases h with
    | one hcovers h => exact ⟨_, _, rfl, hcovers, h⟩
  · rintro ⟨c, rest, rfl, hcovers, h⟩
    exact .one hcovers h

theorem matches_many_nil_iff :
    Matches (.many k :: items) before [] ↔ Matches items before [] := by
  constructor
  · intro h
    cases h with
    | stop h => exact h
  · exact .stop

theorem matches_many_cons_iff : Matches (.many k :: items) before (c :: after) ↔
    Matches items before (c :: after) ∨
      k.covers c ∧ Matches (.many k :: items) (before ++ [c]) after := by
  constructor
  · intro h
    cases h with
    | stop h => exact .inl h
    | more hcovers h => exact .inr ⟨hcovers, h⟩
  · rintro (h | ⟨hcovers, h⟩)
    · exact .stop h
    · exact .more hcovers h

/-- A run goes up to a place from which the rest matches. -/
theorem matches_many_iff : Matches (.many k :: items) before after ↔
    ∃ run rest, after = run ++ rest ∧ (∀ c ∈ run, k.covers c) ∧
      Matches items (before ++ run) rest := by
  induction after generalizing before with
  | nil =>
    rw [matches_many_nil_iff]
    constructor
    · exact fun h => ⟨[], [], rfl, by simp, by simpa using h⟩
    · rintro ⟨run, rest, hafter, _, h⟩
      obtain ⟨rfl, rfl⟩ := List.append_eq_nil_iff.mp hafter.symm
      simpa using h
  | cons c after ih =>
    rw [matches_many_cons_iff, ih]
    constructor
    · rintro (h | ⟨hcovers, run, rest, rfl, hrun, h⟩)
      · exact ⟨[], c :: after, rfl, by simp, by simpa using h⟩
      · exact ⟨c :: run, rest, rfl, by simpa [hcovers] using hrun, by simpa using h⟩
    · rintro ⟨run, rest, hafter, hrun, h⟩
      cases run with
      | nil =>
        obtain rfl : c :: after = rest := by simpa using hafter
        exact .inl (by simpa using h)
      | cons d run =>
        obtain ⟨rfl, rfl⟩ := List.cons.inj hafter
        have hboth : k.covers c ∧ ∀ d ∈ run, k.covers d := by simpa using hrun
        exact .inr ⟨hboth.1, run, rest, rfl, hboth.2, by simpa using h⟩

end

/-! ## The search of the library -/

/-- For each place of a text from one on, the list tells whether `P` holds there. -/
inductive Tells (P : List Char → List Char → Prop) : List Char → List Char → List Bool → Prop
  | last {before : List Char} {here : Bool} : (here = true ↔ P before []) →
      Tells P before [] [here]
  | step {before after : List Char} {c : Char} {here : Bool} {told : List Bool} :
      (here = true ↔ P before (c :: after)) → Tells P (before ++ [c]) after told →
      Tells P before (c :: after) (here :: told)

section

variable {P : List Char → List Char → Prop} {before after : List Char} {told : List Bool}

theorem Tells.head_iff (h : Tells P before after told) :
    told.headD false = true ↔ P before after := by
  cases h with
  | last hhere => exact hhere
  | step hhere _ => exact hhere

theorem Tells.any_iff (h : Tells P before after told) : told.any id = true ↔
    ∃ front rest, after = front ++ rest ∧ P (before ++ front) rest := by
  induction h with
  | @last before here hhere =>
    simp only [List.any_cons, List.any_nil, Bool.or_false, id_eq, hhere]
    constructor
    · exact fun h => ⟨[], [], rfl, by simpa using h⟩
    · rintro ⟨front, rest, hafter, h⟩
      obtain ⟨rfl, rfl⟩ := List.append_eq_nil_iff.mp hafter.symm
      simpa using h
  | @step before after c here told hhere _ ih =>
    simp only [List.any_cons, Bool.or_eq_true, id_eq, hhere, ih]
    constructor
    · rintro (h | ⟨front, rest, rfl, h⟩)
      · exact ⟨[], c :: after, rfl, by simpa using h⟩
      · exact ⟨c :: front, rest, rfl, by simpa using h⟩
    · rintro ⟨front, rest, hafter, h⟩
      cases front with
      | nil =>
        obtain rfl : c :: after = rest := by simpa using hafter
        exact .inl (by simpa using h)
      | cons d front =>
        obtain ⟨rfl, rfl⟩ := List.cons.inj hafter
        exact .inr ⟨front, rest, rfl, by simpa using h⟩

theorem tells_replicate (before after : List Char) :
    Tells (Matches []) before after (List.replicate (after.length + 1) true) := by
  induction after generalizing before with
  | nil => exact .last (iff_of_true rfl .nil)
  | cons c after ih => exact .step (iff_of_true rfl .nil) (ih _)

/-- One more item in front: its places are told by those of the items behind it. -/
theorem tells_extend (item : RegexItem) {items : Regex} (h : Tells (Matches items) before after told) :
    Tells (Matches (item :: items)) before after (extend item before.isEmpty after told) := by
  induction h with
  | @last before here hhere =>
    refine .last ?_
    cases item with
    | atStart => simp [matches_atStart_iff, hhere]
    | atEnd => simp [matches_atEnd_iff, hhere]
    | one k => simp [matches_one_iff]
    | many k => simp [matches_many_nil_iff, hhere]
  | @step before after c here told hhere htold ih =>
    -- every place behind the first one has a character before it
    have hbehind : (before ++ [c]).isEmpty = false := by simp
    rw [hbehind] at ih
    have hrest := ih.head_iff
    refine .step ?_ ih
    cases item with
    | atStart => simp [matches_atStart_iff, hhere]
    | atEnd => simp [matches_atEnd_iff]
    | one k =>
      simp only [matches_one_iff, Bool.and_eq_true, htold.head_iff]
      constructor
      · rintro ⟨hcovers, h⟩
        exact ⟨c, after, rfl, hcovers, h⟩
      · rintro ⟨_, _, heq, hcovers, h⟩
        obtain ⟨rfl, rfl⟩ := List.cons.inj heq
        exact ⟨hcovers, h⟩
    | many k => simp only [matches_many_cons_iff, Bool.or_eq_true, Bool.and_eq_true, hhere, hrest]

theorem tells_places (text : List Char) (items : Regex) :
    Tells (Matches items) [] text (places text items) := by
  induction items with
  | nil => exact tells_replicate [] text
  | cons item items ih => exact tells_extend item ih

end

theorem isSearch_search : IsSearch search := by
  intro expression text items hread
  unfold search
  rw [hread]
  simpa using (tells_places text.toList items).any_iff

end ClassAtlas.Regex
