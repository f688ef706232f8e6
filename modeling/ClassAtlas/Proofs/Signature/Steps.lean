-- What a reader of signatures takes, as a relation. Each reader has one law that says
-- exactly which texts it takes; a reader that takes steps is described by the items that its
-- steps take and by what ends it.
import ClassAtlas.Signature.Grammar

namespace ClassAtlas.Signature

variable {α β σ : Type}

/-- The reader answers `a` and leaves `rest` of the text. -/
def Takes (reader : Parser α) (text : List Char) (a : α) (rest : List Char) : Prop :=
  reader text = .ok (a, rest)

/-! ## Single steps -/

@[simp]
theorem takes_pure {a b : α} {text rest : List Char} :
    Takes (pure a) text b rest ↔ a = b ∧ text = rest := by
  show Except.ok (a, text) = Except.ok (b, rest) ↔ _
  rw [Except.ok.injEq, Prod.mk.injEq]

theorem takes_bind {reader : Parser α} {next : α → Parser β} {text rest : List Char} {b : β} :
    Takes (reader >>= next) text b rest ↔
      ∃ a mid, Takes reader text a mid ∧ Takes (next a) mid b rest := by
  have hbind : (reader >>= next) text =
      (reader text).bind fun answer => next answer.1 answer.2 := rfl
  unfold Takes
  rw [hbind]
  constructor
  · intro h
    cases hfirst : reader text with
    | error stuck =>
      rw [hfirst] at h
      cases h
    | ok answer =>
      rw [hfirst] at h
      exact ⟨answer.1, answer.2, rfl, h⟩
  · rintro ⟨a, mid, hfirst, hnext⟩
    rw [hfirst]
    exact hnext

@[simp]
theorem not_takes_stop {cause : Cause} {text rest : List Char} {a : α} :
    ¬ Takes (stop cause) text a rest := fun h => by cases h

@[simp]
theorem not_takes_unexpected {expected : String} {text rest : List Char} {a : α} :
    ¬ Takes (unexpected expected) text a rest := by
  intro h
  cases text <;> cases h

theorem takes_ite {p : Prop} [Decidable p] {reader other : Parser α} {text rest : List Char}
    {a : α} : Takes (if p then reader else other) text a rest ↔
      p ∧ Takes reader text a rest ∨ ¬ p ∧ Takes other text a rest := by
  by_cases h : p <;> simp [h]

/-- A reader that looks at the next character first. -/
theorem takes_peek {next : Char → Parser β} {text rest : List Char} {b : β} :
    Takes (peek >>= next) text b rest ↔
      ∃ c more, text = c :: more ∧ Takes (next c) text b rest := by
  rw [takes_bind]
  constructor
  · rintro ⟨c, mid, hpeek, hnext⟩
    cases text with
    | nil => cases hpeek
    | cons d more =>
      cases hpeek
      exact ⟨c, more, rfl, hnext⟩
  · rintro ⟨c, more, rfl, hnext⟩
    exact ⟨c, c :: more, rfl, hnext⟩

/-- A reader that moves past the next character first. -/
theorem takes_advance {next : Unit → Parser β} {c : Char} {more rest : List Char} {b : β} :
    Takes (advance >>= next) (c :: more) b rest ↔ Takes (next ()) more b rest := by
  rw [takes_bind]
  constructor
  · rintro ⟨_, mid, hadvance, hnext⟩
    cases hadvance
    exact hnext
  · exact fun hnext => ⟨(), more, rfl, hnext⟩

theorem takes_expect {c : Char} {expected : String} {text rest : List Char} :
    Takes (expect c expected) text () rest ↔ text = c :: rest := by
  unfold expect
  rw [takes_peek]
  constructor
  · rintro ⟨d, more, rfl, h⟩
    by_cases hd : d = c
    · subst hd
      rw [if_pos rfl] at h
      cases h
      rfl
    · rw [if_neg hd] at h
      exact absurd h not_takes_unexpected
  · rintro rfl
    exact ⟨c, rest, rfl, by rw [if_pos rfl]; rfl⟩

/-- A reader that goes on behind a given character. -/
theorem takes_expect_bind {c : Char} {expected : String} {next : Unit → Parser β}
    {text rest : List Char} {b : β} : Takes (expect c expected >>= next) text b rest ↔
      ∃ more, text = c :: more ∧ Takes (next ()) more b rest := by
  rw [takes_bind]
  constructor
  · rintro ⟨_, more, hexpect, hnext⟩
    exact ⟨more, takes_expect.mp hexpect, hnext⟩
  · rintro ⟨more, rfl, hnext⟩
    exact ⟨(), more, takes_expect.mpr rfl, hnext⟩

/-- The reader takes exactly the spellings of what fits. -/
def Reads (reader : Parser α) (fits : α → Prop) (spell : α → List Char) : Prop :=
  ∀ text a rest, Takes reader text a rest ↔ fits a ∧ text = spell a ++ rest

/-- A step that puts one more item into a list. -/
theorem takes_put {reader : Parser α} {fits : α → Prop} {spell : α → List Char}
    (hreader : Reads reader fits spell) {put : α → β} {read next : List β} {text mid : List Char} :
    Takes (do return .inl (read ++ [put (← reader)])) text (Sum.inl next : List β ⊕ σ) mid ↔
      ∃ a, fits a ∧ next = read ++ [put a] ∧ text = spell a ++ mid := by
  rw [takes_bind]
  constructor
  · rintro ⟨a, mid', ha, hput⟩
    obtain ⟨heq, rfl⟩ := takes_pure.mp hput
    cases heq
    obtain ⟨hfits, htext⟩ := (hreader _ _ _).mp ha
    exact ⟨a, hfits, rfl, htext⟩
  · rintro ⟨a, hfits, rfl, htext⟩
    exact ⟨a, mid, (hreader _ _ _).mpr ⟨hfits, htext⟩, takes_pure.mpr ⟨rfl, rfl⟩⟩

theorem not_takes_put {reader : Parser α} {put : α → β} {read : List β} {text rest : List Char}
    {b : σ} : ¬ Takes (do return .inl (read ++ [put (← reader)])) text
      (Sum.inr b : List β ⊕ σ) rest := by
  rw [takes_bind]
  rintro ⟨a, mid, _, hput⟩
  cases (takes_pure.mp hput).1

/-! ## Runs of steps -/

/-- Steps lead from a state to an answer. -/
inductive StepsTo (step : σ → Parser (σ ⊕ β)) : σ → List Char → β → List Char → Prop
  | done {s : σ} {text rest : List Char} {b : β} :
      Takes (step s) text (.inr b) rest → StepsTo step s text b rest
  | next {s t : σ} {text mid rest : List Char} {b : β} :
      Takes (step s) text (.inl t) mid → StepsTo step t mid b rest → StepsTo step s text b rest

theorem takes_stepsWith_succ {step : σ → Parser (σ ⊕ β)} {fuel : Nat} {s : σ}
    {text rest : List Char} {b : β} : Takes (stepsWith step (fuel + 1) s) text b rest ↔
      Takes (step s) text (.inr b) rest ∨
        ∃ t mid, Takes (step s) text (.inl t) mid ∧ Takes (stepsWith step fuel t) mid b rest := by
  rw [stepsWith, takes_bind]
  constructor
  · rintro ⟨t | a, mid, hstep, hnext⟩
    · exact Or.inr ⟨t, mid, hstep, hnext⟩
    · obtain ⟨rfl, rfl⟩ := takes_pure.mp hnext
      exact Or.inl hstep
  · rintro (hdone | ⟨t, mid, hstep, hnext⟩)
    · exact ⟨.inr b, rest, hdone, takes_pure.mpr ⟨rfl, rfl⟩⟩
    · exact ⟨.inl t, mid, hstep, hnext⟩

theorem stepsTo_of_takes {step : σ → Parser (σ ⊕ β)} {fuel : Nat} {s : σ}
    {text rest : List Char} {b : β} (h : Takes (stepsWith step fuel s) text b rest) :
    StepsTo step s text b rest := by
  induction fuel generalizing s text with
  | zero => exact absurd h not_takes_stop
  | succ fuel ih =>
    rcases takes_stepsWith_succ.mp h with hdone | ⟨t, mid, hstep, hnext⟩
    · exact .done hdone
    · exact .next hstep (ih hnext)

/-- Every step that is not the last takes a character, so the fuel is enough. -/
theorem takes_of_stepsTo {step : σ → Parser (σ ⊕ β)}
    (hless : ∀ s text t mid, Takes (step s) text (.inl t) mid → mid.length < text.length)
    {s : σ} {text rest : List Char} {b : β} (h : StepsTo step s text b rest) {fuel : Nat}
    (hfuel : text.length < fuel) : Takes (stepsWith step fuel s) text b rest := by
  induction h generalizing fuel with
  | done hdone =>
    obtain ⟨fuel, rfl⟩ := Nat.exists_eq_add_one_of_ne_zero (Nat.ne_of_gt (Nat.zero_lt_of_lt hfuel))
    exact takes_stepsWith_succ.mpr (Or.inl hdone)
  | @next s t text mid rest b hstep _ ih =>
    obtain ⟨fuel, rfl⟩ := Nat.exists_eq_add_one_of_ne_zero (Nat.ne_of_gt (Nat.zero_lt_of_lt hfuel))
    have hmid := hless s text t mid hstep
    exact takes_stepsWith_succ.mpr (Or.inr ⟨t, mid, hstep, ih (by omega)⟩)

/-- Some items one after the other, each of which may stand before what follows it. -/
def Chain (item : α → List Char) (fits : α → List Char → Prop) : List α → List Char → Prop
  | [], _ => True
  | a :: rest, tail => fits a (rest.flatMap item ++ tail) ∧ Chain item fits rest tail

/-- Steps that take an item each, and an end that is told by `done`. -/
theorem takes_steps {step : σ → Parser (σ ⊕ β)} {put : σ → α → σ} {item : α → List Char}
    {fits : α → List Char → Prop} {done : σ → List Char → β → List Char → Prop}
    (hnext : ∀ s text t mid, Takes (step s) text (.inl t) mid ↔
      ∃ a, fits a mid ∧ t = put s a ∧ text = item a ++ mid)
    (hdone : ∀ s text b rest, Takes (step s) text (.inr b) rest ↔ done s text b rest)
    (hitem : ∀ a mid, fits a mid → item a ≠ []) {s : σ} {text rest : List Char} {b : β} :
    Takes (steps step s) text b rest ↔ ∃ items tail, Chain item fits items tail ∧
      text = items.flatMap item ++ tail ∧ done (items.foldl put s) tail b rest := by
  have hless : ∀ s text t mid, Takes (step s) text (.inl t) mid → mid.length < text.length := by
    intro s text t mid hstep
    obtain ⟨a, hfits, -, rfl⟩ := (hnext s text t mid).mp hstep
    have hpos := List.length_pos_iff.mpr (hitem a mid hfits)
    rw [List.length_append]
    omega
  constructor
  · intro h
    have hsteps : StepsTo step s text b rest := stepsTo_of_takes h
    induction hsteps with
    | done hstep => exact ⟨[], _, trivial, rfl, (hdone _ _ _ _).mp hstep⟩
    | next hstep hrest ih =>
      obtain ⟨a, hfits, rfl, rfl⟩ := (hnext _ _ _ _).mp hstep
      obtain ⟨items, tail, hchain, rfl, hend⟩ :=
        ih (takes_of_stepsTo hless hrest (Nat.lt_succ_self _))
      exact ⟨a :: items, tail, ⟨hfits, hchain⟩, by simp, hend⟩
  · rintro ⟨items, tail, hchain, rfl, hend⟩
    have hsteps : StepsTo step s (items.flatMap item ++ tail) b rest := by
      induction items generalizing s with
      | nil => exact .done ((hdone _ _ _ _).mpr hend)
      | cons a items ih =>
        obtain ⟨hfits, hchain⟩ := hchain
        refine .next ((hnext _ _ _ _).mpr ⟨a, hfits, rfl, ?_⟩) (ih hchain hend)
        rw [List.flatMap_cons, List.append_assoc]
    exact takes_of_stepsTo hless hsteps (Nat.lt_succ_self _)

theorem chain_iff_forall {item : α → List Char} {fits : α → Prop} {items : List α}
    {tail : List Char} : Chain item (fun a _ => fits a) items tail ↔ ∀ a ∈ items, fits a := by
  induction items with
  | nil => simp [Chain]
  | cons a items ih => simp [Chain, ih]

theorem foldl_snoc (read items : List α) :
    items.foldl (fun read a => read ++ [a]) read = read ++ items := by
  induction items generalizing read with
  | nil => simp
  | cons a items ih => simp [ih]

/-- Steps that put item after item into a list, when each may stand before anything. -/
theorem takes_list {step : List α → Parser (List α ⊕ β)} {item : α → List Char}
    {fits : α → Prop} {done : List α → List Char → β → List Char → Prop}
    (hnext : ∀ read text t mid, Takes (step read) text (.inl t) mid ↔
      ∃ a, fits a ∧ t = read ++ [a] ∧ text = item a ++ mid)
    (hdone : ∀ read text b rest, Takes (step read) text (.inr b) rest ↔ done read text b rest)
    (hitem : ∀ a, item a ≠ []) {text rest : List Char} {b : β} :
    Takes (steps step []) text b rest ↔ ∃ items tail, (∀ a ∈ items, fits a) ∧
      text = items.flatMap item ++ tail ∧ done items tail b rest := by
  have hsteps : Takes (steps step []) text b rest ↔ _ :=
    takes_steps hnext hdone fun a _ _ => hitem a
  simpa only [chain_iff_forall, foldl_snoc, List.nil_append] using hsteps

end ClassAtlas.Signature
