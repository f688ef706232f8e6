-- Parts of a text come back from the whole. A text is cut at a character that no part has,
-- and words that are ended by a mark can be told apart if the mark stands in no word.
import Mathlib.Data.List.Basic
import ClassAtlas.Text.Split

namespace ClassAtlas.Text

variable {sep : Char}

/-! ## Cutting at a character -/

theorem splitAt_ne_nil (sep : Char) (text : List Char) : splitAt sep text ≠ [] := by
  cases text with
  | nil => simp [splitAt]
  | cons c rest =>
    unfold splitAt
    split
    · split <;> simp
    · simp

theorem splitAt_cons (c : Char) (rest : List Char) :
    splitAt sep (c :: rest) = if c = sep then [] :: splitAt sep rest
      else (c :: (splitAt sep rest).headI) :: (splitAt sep rest).tail := by
  have hne := splitAt_ne_nil sep rest
  rw [splitAt]
  cases hrest : splitAt sep rest with
  | nil => exact absurd hrest hne
  | cons part parts => rfl

theorem splitAt_eq_splitOn (text : List Char) : splitAt sep text = text.splitOn sep := by
  induction text with
  | nil => rfl
  | cons c rest ih =>
    obtain ⟨part, parts, hrest⟩ := List.exists_cons_of_ne_nil (splitAt_ne_nil sep rest)
    rw [List.splitOn_cons_eq_if_modifyHead, ← ih, splitAt_cons, hrest]
    simp only [beq_iff_eq]
    rfl

theorem splitAt_of_notMem {text : List Char} (h : sep ∉ text) : splitAt sep text = [text] := by
  rw [splitAt_eq_splitOn, List.splitOn_eq_singleton h]

theorem splitAt_append (front back : List Char) :
    splitAt sep (front ++ sep :: back) = splitAt sep front ++ splitAt sep back := by
  simp only [splitAt_eq_splitOn, List.splitOn_append_cons_self]

theorem notMem_of_mem_splitAt {text part : List Char} (h : part ∈ splitAt sep text) : sep ∉ part := by
  induction text generalizing part with
  | nil =>
    rw [splitAt, List.mem_singleton] at h
    simp [h]
  | cons c rest ih =>
    rw [splitAt_cons] at h
    have hne := splitAt_ne_nil sep rest
    cases hrest : splitAt sep rest with
    | nil => exact absurd hrest hne
    | cons first parts =>
      rw [hrest] at h ih
      split at h
      · rcases List.mem_cons.mp h with rfl | h
        · simp
        · exact ih h
      · rename_i hc
        rcases List.mem_cons.mp h with rfl | h
        · simp [Ne.symm hc, ih List.mem_cons_self]
        · exact ih (List.mem_cons_of_mem _ h)

/-! ## Joining parts -/

theorem join_eq_intercalate (mark : List Char) (parts : List (List Char)) :
    join mark parts = mark.intercalate parts := by
  fun_induction join mark parts with
  | case1 => rfl
  | case2 part => exact List.intercalate_singleton.symm
  | case3 part rest hne ih =>
    rw [ih, List.intercalate_cons_of_ne_nil (by simpa using hne), List.append_assoc]

theorem splitAt_join {parts : List (List Char)} (hne : parts ≠ [])
    (h : ∀ part ∈ parts, sep ∉ part) : splitAt sep (join [sep] parts) = parts := by
  rw [join_eq_intercalate, splitAt_eq_splitOn, List.splitOn_intercalate sep h hne]

theorem join_splitAt (text : List Char) : join [sep] (splitAt sep text) = text := by
  rw [join_eq_intercalate, splitAt_eq_splitOn, List.intercalate_splitOn]

theorem join_cons_cons (mark first next : List Char) (rest : List (List Char)) :
    join mark (first :: next :: rest) = first ++ mark ++ join mark (next :: rest) := rfl

theorem join_cons (mark first : List Char) (parts : List (List Char)) :
    join mark (first :: parts) = first ++ parts.flatMap fun part => mark ++ part := by
  induction parts generalizing first with
  | nil => simp [join]
  | cons part rest ih =>
    rw [join_cons_cons, ih, List.flatMap_cons, List.append_assoc, List.append_assoc]

/-- With an empty part in front the separator stands before each of the others. -/
theorem join_nil_cons (sep : List Char) (parts : List (List Char)) :
    join sep ([] :: parts) = parts.flatMap fun part => sep ++ part := by
  rw [join_cons, List.nil_append]

theorem join_append (mark : List Char) {front back : List (List Char)} (hfront : front ≠ [])
    (hback : back ≠ []) : join mark (front ++ back) = join mark front ++ mark ++ join mark back := by
  obtain ⟨first, others, rfl⟩ := List.exists_cons_of_ne_nil hfront
  obtain ⟨next, rest, rfl⟩ := List.exists_cons_of_ne_nil hback
  simp only [List.cons_append, join_cons, List.flatMap_append, List.flatMap_cons, List.append_assoc]

/-- The parts of a text lead those of another one exactly if that one is the text or goes on with a
cut behind it. -/
theorem splitAt_isPrefix_iff {front text : List Char} : splitAt sep front <+: splitAt sep text ↔
    text = front ∨ ∃ more, text = front ++ sep :: more := by
  constructor
  · rintro ⟨parts, hparts⟩
    have htext : text = join [sep] (splitAt sep front ++ parts) := by rw [hparts, join_splitAt]
    by_cases hnone : parts = []
    · left
      rw [htext, hnone, List.append_nil, join_splitAt]
    · right
      refine ⟨join [sep] parts, ?_⟩
      rw [htext, join_append [sep] (splitAt_ne_nil sep front) hnone, join_splitAt, List.append_assoc,
        List.singleton_append]
  · rintro (rfl | ⟨more, rfl⟩)
    · exact List.prefix_refl _
    · rw [splitAt_append]
      exact List.prefix_append _ _

/-! ## The last cut, the front and the end -/

theorem splitLast?_eq_none {text : List Char} (h : splitLast? sep text = none) : sep ∉ text := by
  induction text with
  | nil => exact List.not_mem_nil
  | cons c rest ih =>
    rw [splitLast?] at h
    cases hrest : splitLast? sep rest with
    | some parts =>
      rw [hrest] at h
      cases h
    | none =>
      rw [hrest] at h
      dsimp only at h
      split at h
      · cases h
      · rename_i hne
        rw [List.mem_cons, not_or]
        exact ⟨Ne.symm hne, ih hrest⟩

theorem splitLast?_eq_some {text before after : List Char}
    (h : splitLast? sep text = some (before, after)) :
    text = before ++ sep :: after ∧ sep ∉ after := by
  induction text generalizing before with
  | nil => cases h
  | cons c rest ih =>
    rw [splitLast?] at h
    cases hrest : splitLast? sep rest with
    | some parts =>
      rw [hrest] at h
      cases h
      obtain ⟨hparts, hnot⟩ := ih hrest
      exact ⟨congrArg (List.cons c) hparts, hnot⟩
    | none =>
      rw [hrest] at h
      dsimp only at h
      split at h
      · rename_i hc
        cases h
        exact ⟨congrArg (· :: after) hc, splitLast?_eq_none hrest⟩
      · cases h

theorem dropFront?_eq_some_iff {front text rest : List Char} :
    dropFront? front text = some rest ↔ text = front ++ rest := by
  fun_induction dropFront? front text with
  | case1 text => simp
  | case2 p front => simp
  | case3 p front text ih => simp [ih]
  | case4 p front c text hne => simp [Ne.symm hne]

theorem dropEnd?_eq_some_iff {back text rest : List Char} :
    dropEnd? back text = some rest ↔ text = rest ++ back := by
  unfold dropEnd?
  rw [Option.map_eq_some_iff]
  constructor
  · rintro ⟨reversed, h, rfl⟩
    rw [dropFront?_eq_some_iff] at h
    rw [← text.reverse_reverse, h, List.reverse_append, List.reverse_reverse]
  · rintro rfl
    exact ⟨rest.reverse, dropFront?_eq_some_iff.mpr List.reverse_append, rest.reverse_reverse⟩

end ClassAtlas.Text

/-! ## Words that end with a mark -/

namespace ClassAtlas

section

variable {α β : Type} {letter : α → β} {stop : β} (hletter : Function.Injective letter)
  (hstop : ∀ a, letter a ≠ stop)

include hletter hstop

theorem word_unique {word word' : List α} {rest rest' : List β}
    (h : word.map letter ++ stop :: rest = word'.map letter ++ stop :: rest') :
    word = word' ∧ rest = rest' := by
  induction word generalizing word' with
  | nil =>
    cases word' with
    | nil => exact ⟨rfl, (List.cons.inj h).2⟩
    | cons a _ => exact absurd (List.cons.inj h).1.symm (hstop a)
  | cons a word ih =>
    cases word' with
    | nil => exact absurd (List.cons.inj h).1 (hstop a)
    | cons a' word' =>
      obtain ⟨hfirst, hothers⟩ := List.cons.inj h
      obtain ⟨rfl, rfl⟩ := ih hothers
      exact ⟨by rw [hletter hfirst], rfl⟩

/-- Words are told apart up to where something stands that is in no word. -/
theorem words_unique {words words' : List (List α)} {rest rest' : List β}
    (hrest : ∀ b ∈ rest.head?, b ≠ stop ∧ ∀ a, letter a ≠ b)
    (hrest' : ∀ b ∈ rest'.head?, b ≠ stop ∧ ∀ a, letter a ≠ b)
    (h : (words.flatMap fun word => word.map letter ++ [stop]) ++ rest =
      (words'.flatMap fun word => word.map letter ++ [stop]) ++ rest') :
    words = words' ∧ rest = rest' := by
  have hends : ∀ {word : List α} {more tail : List β},
      (∀ b ∈ tail.head?, b ≠ stop ∧ ∀ a, letter a ≠ b) →
      tail ≠ word.map letter ++ stop :: more := by
    intro word more tail htail heq
    subst heq
    cases word with
    | nil => exact (htail stop (by simp)).1 rfl
    | cons a word => exact (htail (letter a) (by simp)).2 a rfl
  induction words generalizing words' with
  | nil =>
    cases words' with
    | nil => exact ⟨rfl, h⟩
    | cons word' words' => exact absurd (by simpa using h) (hends hrest)
  | cons word words ih =>
    cases words' with
    | nil => exact absurd (by simpa using h.symm) (hends hrest')
    | cons word' words' =>
      simp only [List.flatMap_cons, List.append_assoc, List.cons_append, List.nil_append] at h
      obtain ⟨rfl, hothers⟩ := word_unique hletter hstop h
      obtain ⟨rfl, htail⟩ := ih hothers
      exact ⟨rfl, htail⟩

/-- Words with the mark in front of each are told apart as well. -/
theorem marked_words_unique {words words' : List (List α)}
    (h : (words.flatMap fun word => stop :: word.map letter) =
      words'.flatMap fun word => stop :: word.map letter) : words = words' := by
  have hshift : ∀ words : List (List α), (words.flatMap fun word => stop :: word.map letter) ++ [stop] =
      stop :: words.flatMap fun word => word.map letter ++ [stop] := by
    intro words
    induction words with
    | nil => rfl
    | cons word rest ih => simp [List.append_assoc, ih]
  have hended := congrArg (· ++ [stop]) h
  simp only [hshift, List.cons.injEq, true_and] at hended
  rw [← List.append_nil (words.flatMap _), ← List.append_nil (words'.flatMap _)] at hended
  exact (words_unique hletter hstop (by simp) (by simp) hended).1

end

/-- Texts that are put together of codes are told apart if their codes are. -/
theorem codes_unique {α β : Type} {code : α → List β} (hne : ∀ a, code a ≠ [])
    (hunique : ∀ {a a' rest rest'}, code a ++ rest = code a' ++ rest' → a = a' ∧ rest = rest')
    {letters letters' : List α} (h : letters.flatMap code = letters'.flatMap code) :
    letters = letters' := by
  induction letters generalizing letters' with
  | nil =>
    cases letters' with
    | nil => rfl
    | cons a' rest' => exact absurd (List.append_eq_nil_iff.mp h.symm).1 (hne a')
  | cons a rest ih =>
    cases letters' with
    | nil => exact absurd (List.append_eq_nil_iff.mp h).1 (hne a)
    | cons a' rest' =>
      obtain ⟨rfl, hrest⟩ := hunique h
      rw [ih hrest]

end ClassAtlas
