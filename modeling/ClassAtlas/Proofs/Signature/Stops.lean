-- Where a reader of signatures stops. A reader that cannot go on stands at the first fault: what
-- it has read can be completed to a text that it takes, and with the next character it cannot.
-- The law is stated for a reader together with everything that is read behind it, so that each
-- way to put readers together has a rule.
import ClassAtlas.Proofs.Signature.Types

namespace ClassAtlas.Signature

variable {α β σ : Type}

/-! ## The first fault -/

/-- The reader takes the whole text. -/
def Accepts (reader : Parser α) (text : List Char) : Prop := ∃ a, Takes reader text a []

/-- There is a text that the reader takes as a whole. -/
def Live (reader : Parser α) : Prop := ∃ text, Accepts reader text

/-- The reader stopped behind `front` because of what stands there. -/
structure FirstFault (reader : Parser α) (front : List Char) (stuck : Stuck) : Prop where
  ended : stuck.cause = .ended ↔ stuck.rest = []
  found : ∀ c expected, stuck.cause = .unexpected c expected → stuck.rest.head? = some c
  completed : front ≠ [] → ∃ ending, Accepts reader (front ++ ending)
  hopeless : ∀ c ∈ stuck.rest.head?, ∀ more, ¬ Accepts reader (front ++ c :: more)

/-- If the reader stops in the text, then at the first fault, or where arguments nest too deep. -/
def StopsAtFault (reader : Parser α) (text : List Char) : Prop :=
  ∀ stuck, reader text = .error stuck → stuck.cause ≠ .tooDeep →
    ∃ front, text = front ++ stuck.rest ∧ FirstFault reader front stuck

theorem bind_apply (reader : Parser α) (next : α → Parser β) (text : List Char) :
    (reader >>= next) text = (reader text).bind fun answer => next answer.1 answer.2 := rfl

theorem bind_of_takes {reader : Parser α} {next : α → Parser β} {text mid : List Char} {a : α}
    (h : Takes reader text a mid) : (reader >>= next) text = next a mid := by
  rw [bind_apply, show reader text = .ok (a, mid) from h]
  rfl

theorem bind_of_stuck {reader : Parser α} {next : α → Parser β} {text : List Char} {stuck : Stuck}
    (h : reader text = .error stuck) : (reader >>= next) text = .error stuck := by
  rw [bind_apply, h]
  rfl

theorem accepts_bind_of_takes {reader : Parser α} {next : α → Parser β} {text mid : List Char}
    {a : α} (h : Takes reader text a mid) : Accepts (reader >>= next) text ↔ Accepts (next a) mid := by
  unfold Accepts Takes
  rw [bind_of_takes h]

theorem stopsAtFault_of_takes {reader : Parser α} {text rest : List Char} {a : α}
    (h : Takes reader text a rest) : StopsAtFault reader text := by
  intro stuck hstuck
  rw [show reader text = .ok (a, rest) from h] at hstuck
  cases hstuck

/-- A reader that takes nothing at all, because of what the text begins with. -/
theorem stopsAtFault_here {reader : Parser α} {text : List Char} (cause : Cause)
    (hstuck : reader text = .error ⟨cause, text⟩) (hended : cause = .ended ↔ text = [])
    (hfound : ∀ c expected, cause = .unexpected c expected → text.head? = some c)
    (hhopeless : ∀ c ∈ text.head?, ∀ more, ¬ Accepts reader (c :: more)) :
    StopsAtFault reader text := by
  intro stuck heq _
  rw [hstuck] at heq
  cases heq
  exact ⟨[], rfl, hended, hfound, fun h => absurd rfl h, hhopeless⟩

/-- The law of what is left carries over to the whole, if the reader comes to the same place in
each text that goes on with the same character. -/
theorem StopsAtFault.behind {reader next : Parser α} (used : List Char) {mid : List Char}
    (hrun : reader (used ++ mid) = next mid)
    (hsame : ∀ other, other.head? = mid.head? →
      (Accepts reader (used ++ other) ↔ Accepts next other))
    (hlive : used ≠ [] → ∃ ending, Accepts reader (used ++ ending))
    (h : StopsAtFault next mid) : StopsAtFault reader (used ++ mid) := by
  intro stuck hstuck hcause
  rw [hrun] at hstuck
  obtain ⟨front, hmid, hfault⟩ := h stuck hstuck hcause
  refine ⟨used ++ front, by rw [hmid, List.append_assoc], hfault.ended, hfault.found, ?_, ?_⟩
  · intro hne
    by_cases hfront : front = []
    · subst hfront
      rw [List.append_nil] at hne ⊢
      exact hlive hne
    · obtain ⟨ending, hending⟩ := hfault.completed hfront
      refine ⟨ending, ?_⟩
      rw [List.append_assoc]
      refine (hsame _ ?_).mpr hending
      cases front with
      | nil => exact absurd rfl hfront
      | cons c more => rw [hmid]; rfl
  · intro c hc more haccepts
    rw [List.append_assoc] at haccepts
    refine hfault.hopeless c hc more ((hsame _ ?_).mp haccepts)
    cases front with
    | nil => rw [hmid, List.nil_append, List.nil_append, Option.mem_def.mp hc]; rfl
    | cons d others => rw [hmid]; rfl

/-! ## Single steps -/

theorem stopsAtFault_peek {next : Char → Parser β} {text : List Char}
    (h : ∀ c more, text = c :: more → StopsAtFault (next c) text) :
    StopsAtFault (peek >>= next) text := by
  cases text with
  | nil => exact stopsAtFault_here .ended rfl ⟨fun _ => rfl, fun _ => rfl⟩ nofun nofun
  | cons c more =>
    have hpeek : ∀ others, Takes peek (c :: others) c (c :: others) := fun _ => rfl
    refine .behind [] (bind_of_takes (hpeek more)) ?_ (absurd rfl) (h c more rfl)
    intro other hhead
    obtain ⟨others, rfl⟩ := List.head?_eq_some_iff.mp hhead
    exact accepts_bind_of_takes (hpeek others)

theorem stopsAtFault_advance {next : Unit → Parser β} {c : Char} {more : List Char}
    (hlive : Live (next ())) (h : StopsAtFault (next ()) more) :
    StopsAtFault (advance >>= next) (c :: more) := by
  have hadvance : ∀ others, Takes advance (c :: others) () others := fun _ => rfl
  obtain ⟨ending, hending⟩ := hlive
  refine .behind [c] (bind_of_takes (hadvance more)) ?_ ?_ h
  · exact fun other _ => accepts_bind_of_takes (hadvance other)
  · exact fun _ => ⟨ending, (accepts_bind_of_takes (hadvance ending)).mpr hending⟩

theorem stopsAtFault_unexpected {expected : String} {next : α → Parser β} {text : List Char} :
    StopsAtFault (unexpected expected >>= next) text := by
  have hnever : ∀ other, ¬ Accepts (unexpected expected >>= next) other := by
    rintro other ⟨b, h⟩
    obtain ⟨a, mid, hunexpected, _⟩ := takes_bind.mp h
    exact not_takes_unexpected hunexpected
  cases text with
  | nil => exact stopsAtFault_here .ended rfl ⟨fun _ => rfl, fun _ => rfl⟩ nofun fun c _ _ => hnever _
  | cons c more =>
    refine stopsAtFault_here (.unexpected c expected) rfl ⟨nofun, nofun⟩ ?_
      fun c _ _ => hnever _
    rintro _ _ ⟨⟩
    rfl

theorem expect_bind (c : Char) (expected : String) (next : Unit → Parser β) :
    expect c expected >>= next =
      peek >>= fun d => if d = c then advance >>= next else unexpected expected >>= next := by
  rw [expect, bind_assoc]
  congr 1
  funext d
  split <;> rfl

theorem stopsAtFault_expect {c : Char} {expected : String} {next : Unit → Parser β}
    {text : List Char} (hlive : Live (next ()))
    (h : ∀ more, more.length < text.length → StopsAtFault (next ()) more) :
    StopsAtFault (expect c expected >>= next) text := by
  rw [expect_bind]
  refine stopsAtFault_peek ?_
  rintro d more rfl
  split
  · exact stopsAtFault_advance hlive (h more (Nat.lt_succ_self _))
  · exact stopsAtFault_unexpected

/-- A name ends where the next character says so, so what follows it must begin with one that
ends names. -/
theorem stopsAtFault_name {next : String → Parser β} {text : List Char}
    (hlive : ∀ n, ∃ ending, EndsName ending ∧ Accepts (next n) ending)
    (h : ∀ n mid, mid.length < text.length → StopsAtFault (next n) mid) :
    StopsAtFault (name >>= next) text := by
  cases hname : name text with
  | ok answer =>
    obtain ⟨n, mid⟩ := answer
    obtain ⟨hn, rfl, hends⟩ := takes_name.mp hname
    have htakes : ∀ other, EndsName other → Takes name (n.toList ++ other) n other :=
      fun other hother => takes_name.mpr ⟨hn, rfl, hother⟩
    have hshort : mid.length < (n.toList ++ mid).length := by
      have hpos := List.length_pos_iff.mpr hn.1
      rw [List.length_append]
      omega
    refine .behind n.toList (bind_of_takes hname) ?_ ?_ (h n mid hshort)
    · intro other hhead
      refine accepts_bind_of_takes (htakes other ?_)
      unfold EndsName
      rwa [hhead]
    · intro _
      obtain ⟨ending, hends, hending⟩ := hlive n
      exact ⟨ending, (accepts_bind_of_takes (htakes ending hends)).mpr hending⟩
  | error stuck =>
    have hfront : text.takeWhile (fun c => !endsName c) = [] := by
      unfold name at hname
      split at hname
      · assumption
      · cases hname
    have hstuck : name text = .error ⟨if text.isEmpty then .ended else .emptyName, text⟩ := by
      unfold name
      rw [hfront]
    refine stopsAtFault_here _ (bind_of_stuck hstuck) ?_ ?_ ?_
    · cases text <;> simp
    · cases text <;> simp
    · rintro c hc more ⟨b, htakes⟩
      obtain ⟨others, rfl⟩ := List.head?_eq_some_iff.mp (Option.mem_def.mp hc)
      have hends : endsName c = true := by
        cases hends : endsName c with
        | true => rfl
        | false => simp [hends] at hfront
      obtain ⟨n, mid, hn, _⟩ := takes_bind.mp htakes
      obtain ⟨⟨hne, hall⟩, hcut, _⟩ := takes_name.mp hn
      cases hlist : n.toList with
      | nil => exact hne hlist
      | cons d letters =>
        rw [hlist] at hcut
        obtain ⟨rfl, _⟩ := List.cons.inj hcut
        rw [hall c (by simp [hlist])] at hends
        cases hends

/-! ## Readers in front of others -/

/-- Whatever is read behind the reader, the whole stops at its first fault if the part behind
does so and can be completed. -/
def Guides (reader : Parser α) : Prop :=
  ∀ ⦃β : Type⦄ (next : α → Parser β) (text : List Char), (∀ a, Live (next a)) →
    (∀ a mid, mid.length < text.length → StopsAtFault (next a) mid) →
      StopsAtFault (reader >>= next) text

theorem Guides.bind_pure {reader : Parser α} (h : Guides reader) (put : α → β) :
    Guides (reader >>= fun a => pure (put a)) := by
  intro γ next text hlive hnext
  rw [bind_assoc]
  exact h _ text (fun a => hlive (put a)) fun a => hnext (put a)

/-- What can be read in front of a live reader makes a live reader. -/
theorem Live.bind {reader : Parser α} {next : α → Parser β} (text : List Char) {a : α}
    (h : ∀ rest, Takes reader (text ++ rest) a rest) (hnext : Live (next a)) :
    Live (reader >>= next) := by
  obtain ⟨ending, hending⟩ := hnext
  exact ⟨text ++ ending, (accepts_bind_of_takes (h ending)).mpr hending⟩

/-! ## Runs of steps -/

/-- Each step but the last takes a character. -/
def Advances (step : σ → Parser (σ ⊕ α)) : Prop :=
  ∀ s text t mid, Takes (step s) text (.inl t) mid → mid.length < text.length

theorem advances_of_items {step : σ → Parser (σ ⊕ α)} {put : σ → β → σ} {item : β → List Char}
    {fits : β → List Char → Prop}
    (hnext : ∀ s text t mid, Takes (step s) text (.inl t) mid ↔
      ∃ b, fits b mid ∧ t = put s b ∧ text = item b ++ mid)
    (hitem : ∀ b, item b ≠ []) : Advances step := by
  intro s text t mid hstep
  obtain ⟨b, -, -, rfl⟩ := (hnext s text t mid).mp hstep
  have hpos := List.length_pos_iff.mpr (hitem b)
  rw [List.length_append]
  omega

theorem stepsWith_of_enough {step : σ → Parser (σ ⊕ α)} (hless : Advances step)
    {fuel fuel' : Nat} {s : σ} {text : List Char} (h : text.length < fuel)
    (h' : text.length < fuel') : stepsWith step fuel s text = stepsWith step fuel' s text := by
  induction fuel generalizing fuel' s text with
  | zero => exact absurd h (Nat.not_lt_zero _)
  | succ fuel ih =>
    obtain ⟨fuel', rfl⟩ := Nat.exists_eq_add_one_of_ne_zero (Nat.ne_of_gt (Nat.zero_lt_of_lt h'))
    rw [stepsWith, stepsWith]
    cases hstep : step s text with
    | error stuck => rw [bind_of_stuck hstep, bind_of_stuck hstep]
    | ok answer =>
      obtain ⟨out, mid⟩ := answer
      rw [bind_of_takes hstep, bind_of_takes hstep]
      cases out with
      | inr b => rfl
      | inl t =>
        have hmid := hless s text t mid hstep
        exact ih (by omega) (by omega)

/-- What follows one step: more steps, or what stands behind all of them. -/
def goOn (step : σ → Parser (σ ⊕ α)) (next : α → Parser β) : σ ⊕ α → Parser β
  | .inl t => steps step t >>= next
  | .inr b => next b

theorem steps_bind {step : σ → Parser (σ ⊕ α)} (hless : Advances step) (s : σ)
    (next : α → Parser β) : steps step s >>= next = step s >>= goOn step next := by
  funext text
  have hunfold : steps step s text = stepsWith step (text.length + 1) s text := rfl
  rw [stepsWith] at hunfold
  cases hstep : step s text with
  | error stuck =>
    rw [bind_of_stuck hstep] at hunfold
    rw [bind_of_stuck hstep, bind_of_stuck hunfold]
  | ok answer =>
    obtain ⟨out, mid⟩ := answer
    rw [bind_of_takes hstep] at hunfold
    rw [bind_of_takes hstep, bind_apply, hunfold]
    cases out with
    | inr b => rfl
    | inl t =>
      have hmid := hless s text t mid hstep
      have hfuel : stepsWith step text.length t mid = steps step t mid :=
        stepsWith_of_enough hless hmid (Nat.lt_succ_self _)
      simp only [hfuel]
      rfl

/-- By induction on the text: one step, when shorter texts are known. -/
theorem stopsAtFault_steps {step : σ → Parser (σ ⊕ α)} (hless : Advances step)
    {next : α → Parser β} {text : List Char}
    (hstep : ∀ s mid, mid.length ≤ text.length →
      (∀ t back, back.length < mid.length → StopsAtFault (steps step t >>= next) back) →
        StopsAtFault (step s >>= goOn step next) mid) (s : σ) :
    StopsAtFault (steps step s >>= next) text := by
  have hall : ∀ n mid s, mid.length = n → mid.length ≤ text.length →
      StopsAtFault (steps step s >>= next) mid := by
    intro n
    induction n using Nat.strongRecOn with
    | ind n ih =>
      rintro mid s rfl hmid
      rw [steps_bind hless]
      exact hstep s mid hmid fun t back hback => ih back.length hback back t rfl (by omega)
  exact hall _ text s rfl (Nat.le_refl _)

theorem accepts_steps {step : σ → Parser (σ ⊕ α)} (hless : Advances step) {next : α → Parser β}
    {s : σ} {text mid : List Char} {out : σ ⊕ α} (h : Takes (step s) text out mid) :
    Accepts (steps step s >>= next) text ↔ Accepts (goOn step next out) mid := by
  rw [steps_bind hless]
  exact accepts_bind_of_takes h

end ClassAtlas.Signature
