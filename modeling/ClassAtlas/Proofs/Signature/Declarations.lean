-- Whole signatures. A text is read as a signature exactly when it is the spelling of one,
-- as long as no type parameter without bounds runs into the next one.
import Mathlib
import ClassAtlas.Proofs.Signature.Types

namespace ClassAtlas.Signature

/-! ## Lists that end with the text -/

theorem takes_atEnd {β : Type} {next : Bool → Parser β} {text rest : List Char} {b : β} :
    Takes (atEnd >>= next) text b rest ↔ Takes (next text.isEmpty) text b rest := by
  rw [takes_bind]
  constructor
  · rintro ⟨_, mid, hend, hnext⟩
    cases hend
    exact hnext
  · exact fun hnext => ⟨text.isEmpty, text, rfl, hnext⟩

section

variable {α : Type} {item : Parser α} {fits : α → Prop} {spell : α → List Char}

theorem takes_stepToEnd_next (hitem : Reads item fits spell) (hspell : ∀ a, spell a ≠ [])
    {read next : List α} {text mid : List Char} :
    Takes (stepToEnd item read) text (.inl next) mid ↔
      ∃ a, fits a ∧ next = read ++ [a] ∧ text = spell a ++ mid := by
  unfold stepToEnd
  rw [takes_atEnd, takes_ite]
  constructor
  · rintro (⟨_, h⟩ | ⟨_, h⟩)
    · cases (takes_pure.mp h).1
    · exact (takes_put hitem).mp h
  · rintro ⟨a, hfits, rfl, rfl⟩
    exact Or.inr ⟨by simp [hspell a], (takes_put hitem).mpr ⟨a, hfits, rfl, rfl⟩⟩

theorem takes_stepToEnd_done {read items : List α} {text rest : List Char} :
    Takes (stepToEnd item read) text (.inr items) rest ↔
      items = read ∧ text = [] ∧ rest = [] := by
  unfold stepToEnd
  rw [takes_atEnd, takes_ite]
  constructor
  · rintro (⟨hnil, h⟩ | ⟨_, h⟩)
    · obtain ⟨heq, rfl⟩ := takes_pure.mp h
      cases heq
      have htext : text = [] := List.isEmpty_iff.mp hnil
      exact ⟨rfl, htext, htext⟩
    · exact absurd h not_takes_put
  · rintro ⟨rfl, rfl, rfl⟩
    exact Or.inl ⟨rfl, takes_pure.mpr ⟨rfl, rfl⟩⟩

theorem takes_toEnd (hitem : Reads item fits spell) (hspell : ∀ a, spell a ≠ [])
    {text rest : List Char} {items : List α} :
    Takes (steps (stepToEnd item) []) text items rest ↔
      (∀ a ∈ items, fits a) ∧ text = items.flatMap spell ∧ rest = [] := by
  rw [takes_list (fun _ _ _ _ => takes_stepToEnd_next hitem hspell)
    (fun _ _ _ _ => takes_stepToEnd_done) hspell]
  constructor
  · rintro ⟨items, tail, hitems, rfl, rfl, rfl, rfl⟩
    exact ⟨hitems, List.append_nil _, rfl⟩
  · rintro ⟨hitems, rfl, rfl⟩
    exact ⟨items, [], hitems, (List.append_nil _).symm, rfl, rfl, rfl⟩

end

/-! ## Type parameters -/

theorem takes_boundStep_next {read next : List ReferenceType} {text mid : List Char} :
    Takes (boundStep read) text (.inl next) mid ↔ ∃ r, r.WellFormed maxNesting ∧
      next = read ++ [r] ∧ text = (':' :: r.spell) ++ mid := by
  unfold boundStep
  rw [takes_peek]
  constructor
  · rintro ⟨c, more, rfl, h⟩
    rcases takes_ite.mp h with ⟨rfl, h⟩ | ⟨_, h⟩
    · rw [takes_advance] at h
      obtain ⟨r, hfits, rfl, rfl⟩ := (takes_put reads_reference).mp h
      exact ⟨r, hfits, rfl, rfl⟩
    · cases (takes_pure.mp h).1
  · rintro ⟨r, hfits, rfl, rfl⟩
    refine ⟨':', r.spell ++ mid, rfl, takes_advance.mpr ?_⟩
    exact (takes_put reads_reference).mpr ⟨r, hfits, rfl, rfl⟩

theorem takes_boundStep_done {read bounds : List ReferenceType} {text rest : List Char} :
    Takes (boundStep read) text (.inr bounds) rest ↔
      bounds = read ∧ text = rest ∧ ∃ c more, rest = c :: more ∧ c ≠ ':' := by
  unfold boundStep
  rw [takes_peek]
  constructor
  · rintro ⟨c, more, rfl, h⟩
    rcases takes_ite.mp h with ⟨rfl, h⟩ | ⟨hc, h⟩
    · rw [takes_advance] at h
      exact absurd h not_takes_put
    · obtain ⟨heq, rfl⟩ := takes_pure.mp h
      cases heq
      exact ⟨rfl, rfl, c, more, rfl, hc⟩
  · rintro ⟨rfl, rfl, c, more, rfl, hc⟩
    refine ⟨c, more, rfl, ?_⟩
    rw [if_neg hc]
    exact takes_pure.mpr ⟨rfl, rfl⟩

theorem takes_bounds {bounds : List ReferenceType} {text rest : List Char} :
    Takes (steps boundStep []) text bounds rest ↔
      (∀ r ∈ bounds, r.WellFormed maxNesting) ∧
        text = bounds.flatMap (fun bound => ':' :: bound.spell) ++ rest ∧
          ∃ c more, rest = c :: more ∧ c ≠ ':' := by
  rw [takes_list (fun _ _ _ _ => takes_boundStep_next) (fun _ _ _ _ => takes_boundStep_done)
    (by simp)]
  constructor
  · rintro ⟨items, tail, hitems, rfl, rfl, rfl, hrest⟩
    exact ⟨hitems, rfl, hrest⟩
  · rintro ⟨hitems, rfl, hrest⟩
    exact ⟨bounds, rest, hitems, rfl, rfl, rfl, hrest⟩

/-- No class bound is read where the next character does not begin a reference type. -/
theorem takes_classBound {bound : Option ReferenceType} {text rest : List Char} :
    Takes classBound text bound rest ↔ (∀ r ∈ bound, r.WellFormed maxNesting) ∧
      text = (bound.map ReferenceType.spell).getD [] ++ rest ∧
        (bound = none → ∃ c more, rest = c :: more ∧ c ∉ ['L', 'T', '[']) := by
  unfold classBound
  rw [takes_peek]
  constructor
  · rintro ⟨c, more, rfl, h⟩
    rcases takes_ite.mp h with ⟨_, h⟩ | ⟨hc, h⟩
    · obtain ⟨r, mid, hr, hput⟩ := takes_bind.mp h
      obtain ⟨rfl, rfl⟩ := takes_pure.mp hput
      obtain ⟨hfits, htext⟩ := (reads_reference _ _ _).mp hr
      refine ⟨?_, htext, nofun⟩
      rintro r' ⟨⟩
      exact hfits
    · obtain ⟨rfl, rfl⟩ := takes_pure.mp h
      exact ⟨nofun, rfl, fun _ => ⟨c, more, rfl, hc⟩⟩
  · rintro ⟨hfits, rfl, hnone⟩
    cases bound with
    | none =>
      obtain ⟨c, more, rfl, hc⟩ := hnone rfl
      refine ⟨c, more, rfl, ?_⟩
      rw [if_neg hc]
      exact takes_pure.mpr ⟨rfl, rfl⟩
    | some r =>
      obtain ⟨c, more, hhead, hc⟩ := head_reference r
      have hmem : c ∈ ['L', 'T', '['] := by simpa using hc
      refine ⟨c, more ++ rest, by simp [hhead], ?_⟩
      rw [if_pos hmem]
      refine takes_bind.mpr ⟨r, rest, ?_, takes_pure.mpr ⟨rfl, rfl⟩⟩
      exact (reads_reference _ _ _).mpr ⟨hfits r rfl, rfl⟩

/-- The text behind a type parameter does not begin with what the parameter would read on. -/
def EndsParameter (p : TypeParameter) (rest : List Char) : Prop :=
  ∃ c more, rest = c :: more ∧ c ≠ ':' ∧ (p.IsBare → c ∉ ['L', 'T', '['])

theorem takes_typeParameter {p : TypeParameter} {text rest : List Char} :
    Takes typeParameter text p rest ↔
      p.WellFormed ∧ EndsParameter p rest ∧ text = p.spell ++ rest := by
  unfold typeParameter
  rw [takes_bind]
  constructor
  · rintro ⟨n, mid, hname, h⟩
    obtain ⟨more, rfl, hbehind⟩ := takes_expect_bind.mp h
    obtain ⟨bound, mid', hbound, hothers⟩ := takes_bind.mp hbehind
    obtain ⟨bounds, mid'', hbounds, hput⟩ := takes_bind.mp hothers
    obtain ⟨rfl, rfl⟩ := takes_pure.mp hput
    obtain ⟨hn, rfl, _⟩ := takes_name.mp hname
    obtain ⟨hfitsBound, rfl, hnone⟩ := takes_classBound.mp hbound
    obtain ⟨hfitsBounds, rfl, c, more, rfl, hc⟩ := takes_bounds.mp hbounds
    refine ⟨⟨hn, hfitsBound, hfitsBounds⟩, ⟨c, more, rfl, hc, ?_⟩, by simp [TypeParameter.spell]⟩
    rintro ⟨hclass, hinterfaces⟩
    obtain ⟨d, more', hd, hmem⟩ := hnone hclass
    rw [show bounds = [] from hinterfaces] at hd
    cases hd
    exact hmem
  · rintro ⟨hfits, ⟨c, more, rfl, hc, hbare⟩, rfl⟩
    obtain ⟨n, bound, bounds⟩ := p
    -- What is left of the text behind the name, and behind the class bound.
    refine ⟨n, ':' :: (bound.map ReferenceType.spell).getD [] ++
      bounds.flatMap (fun bound => ':' :: bound.spell) ++ c :: more, ?_, ?_⟩
    · refine takes_name.mpr ⟨hfits.name, by simp [TypeParameter.spell], ?_⟩
      rintro d ⟨⟩
      rfl
    refine takes_expect_bind.mpr ⟨_, rfl, takes_bind.mpr ⟨bound,
      bounds.flatMap (fun bound => ':' :: bound.spell) ++ c :: more, ?_, ?_⟩⟩
    · refine takes_classBound.mpr ⟨hfits.classBound, by simp, fun hnone => ?_⟩
      cases bounds with
      | nil => exact ⟨c, more, rfl, hbare ⟨hnone, rfl⟩⟩
      | cons r others => exact ⟨':', _, rfl, by decide⟩
    · refine takes_bind.mpr ⟨bounds, c :: more, ?_, takes_pure.mpr ⟨rfl, rfl⟩⟩
      exact takes_bounds.mpr ⟨hfits.interfaceBounds, rfl, c, more, rfl, hc⟩

/-- A type parameter may stand here, and it is not the last one. -/
def ParameterFits (p : TypeParameter) (mid : List Char) : Prop :=
  p.WellFormed ∧ EndsParameter p mid ∧ mid.head? ≠ some '>'

theorem takes_typeParameterStep_next {read next : List TypeParameter} {text mid : List Char} :
    Takes (typeParameterStep read) text (.inl next) mid ↔
      ∃ p, ParameterFits p mid ∧ next = read ++ [p] ∧ text = p.spell ++ mid := by
  unfold typeParameterStep
  rw [takes_bind]
  constructor
  · rintro ⟨p, mid', hp, h⟩
    obtain ⟨c, more, rfl, h⟩ := takes_peek.mp h
    rcases takes_ite.mp h with ⟨rfl, h⟩ | ⟨hc, h⟩
    · rw [takes_advance] at h
      cases (takes_pure.mp h).1
    · obtain ⟨heq, rfl⟩ := takes_pure.mp h
      cases heq
      obtain ⟨hfits, hends, htext⟩ := takes_typeParameter.mp hp
      exact ⟨p, ⟨hfits, hends, by simpa using hc⟩, rfl, htext⟩
  · rintro ⟨p, ⟨hfits, hends, hhead⟩, rfl, rfl⟩
    refine ⟨p, mid, takes_typeParameter.mpr ⟨hfits, hends, rfl⟩, ?_⟩
    obtain ⟨c, more, rfl, _, _⟩ := hends
    have hc : c ≠ '>' := by simpa using hhead
    refine takes_peek.mpr ⟨c, more, rfl, ?_⟩
    rw [if_neg hc]
    exact takes_pure.mpr ⟨rfl, rfl⟩

theorem takes_typeParameterStep_done {read parameters : List TypeParameter}
    {text rest : List Char} : Takes (typeParameterStep read) text (.inr parameters) rest ↔
      ∃ p, p.WellFormed ∧ parameters = read ++ [p] ∧ text = p.spell ++ '>' :: rest := by
  unfold typeParameterStep
  rw [takes_bind]
  constructor
  · rintro ⟨p, mid, hp, h⟩
    obtain ⟨c, more, rfl, h⟩ := takes_peek.mp h
    rcases takes_ite.mp h with ⟨rfl, h⟩ | ⟨_, h⟩
    · rw [takes_advance] at h
      obtain ⟨heq, rfl⟩ := takes_pure.mp h
      cases heq
      obtain ⟨hfits, _, htext⟩ := takes_typeParameter.mp hp
      exact ⟨p, hfits, rfl, htext⟩
    · cases (takes_pure.mp h).1
  · rintro ⟨p, hfits, rfl, rfl⟩
    refine ⟨p, '>' :: rest, takes_typeParameter.mpr ⟨hfits, ?_, rfl⟩,
      takes_peek.mpr ⟨'>', rest, rfl, ?_⟩⟩
    · exact ⟨'>', rest, rfl, by decide, fun _ => by decide⟩
    · rw [if_pos rfl]
      exact takes_advance.mpr (takes_pure.mpr ⟨rfl, rfl⟩)

/-- Between two type parameters only the first letter of the second can be misread. -/
theorem parameterFits_before {p next : TypeParameter} (hnext : next.WellFormed) (more : List Char) :
    ParameterFits p (next.spell ++ more) ↔ p.WellFormed ∧ (p.IsBare → ¬ next.BeginsAsType) := by
  obtain ⟨hne, hall⟩ := hnext.name
  cases hlist : next.name.toList with
  | nil => exact absurd hlist hne
  | cons c letters =>
    have hends : endsName c = false := hall c (by simp [hlist])
    have hcolon : c ≠ ':' := by
      rintro rfl
      cases hends
    have hbracket : c ≠ '[' := by
      rintro rfl
      cases hends
    have hclose : c ≠ '>' := by
      rintro rfl
      cases hends
    have hbegins : next.BeginsAsType ↔ c ∈ ['L', 'T', '['] := by
      simp [TypeParameter.BeginsAsType, hlist, hbracket]
    have hspell : ∃ others, next.spell ++ more = c :: others := by
      simp [TypeParameter.spell, hlist]
    obtain ⟨others, hspell⟩ := hspell
    rw [ParameterFits, EndsParameter, hspell, hbegins]
    constructor
    · rintro ⟨hfits, ⟨d, others', heq, _, hbare⟩, _⟩
      cases heq
      exact ⟨hfits, hbare⟩
    · rintro ⟨hfits, hbare⟩
      exact ⟨hfits, ⟨c, others, rfl, hcolon, hbare⟩, by simpa using hclose⟩

theorem chain_parameters {last : TypeParameter} (hlast : last.WellFormed)
    {parameters : List TypeParameter} {rest : List Char} :
    Chain TypeParameter.spell ParameterFits parameters (last.spell ++ '>' :: rest) ↔
      (∀ p ∈ parameters, p.WellFormed) ∧ Separated (parameters ++ [last]) := by
  induction parameters with
  | nil => simp [Chain, Separated]
  | cons p parameters ih =>
    rw [Chain, ih, List.forall_mem_cons]
    cases parameters with
    | nil =>
      rw [List.flatMap_nil, List.nil_append, parameterFits_before hlast]
      simp [Separated]
    | cons next others =>
      rw [List.flatMap_cons, List.append_assoc]
      constructor
      · rintro ⟨hp, hfits, hseparated⟩
        have hnext : next.WellFormed := hfits next List.mem_cons_self
        obtain ⟨hfitsHere, hbare⟩ := (parameterFits_before hnext _).mp hp
        exact ⟨⟨hfitsHere, hfits⟩, hbare, hseparated⟩
      · rintro ⟨⟨hfitsHere, hfits⟩, hbare, hseparated⟩
        have hnext : next.WellFormed := hfits next List.mem_cons_self
        exact ⟨(parameterFits_before hnext _).mpr ⟨hfitsHere, hbare⟩, hfits, hseparated⟩

theorem takes_typeParameters {parameters : List TypeParameter} {text rest : List Char} :
    Takes typeParameters text parameters rest ↔
      (∀ p ∈ parameters, p.WellFormed) ∧ Separated parameters ∧
        text = spellParameters parameters ++ rest ∧ (parameters = [] → rest.head? ≠ some '<') := by
  have hsteps : ∀ more, Takes (steps typeParameterStep []) more parameters rest ↔
      ∃ front last, (∀ p ∈ front ++ [last], p.WellFormed) ∧ Separated (front ++ [last]) ∧
        parameters = front ++ [last] ∧
          more = parameters.flatMap TypeParameter.spell ++ '>' :: rest := by
    intro more
    rw [takes_steps (fun _ _ _ _ => takes_typeParameterStep_next)
      (fun _ _ _ _ => takes_typeParameterStep_done)
      (fun p _ _ => by simp [TypeParameter.spell])]
    simp only [foldl_snoc, List.nil_append]
    constructor
    · rintro ⟨front, tail, hchain, rfl, last, hlast, rfl, rfl⟩
      obtain ⟨hfits, hseparated⟩ := (chain_parameters hlast).mp hchain
      have hall : ∀ p ∈ front ++ [last], p.WellFormed := by
        simpa [or_imp, forall_and] using ⟨hfits, hlast⟩
      exact ⟨front, last, hall, hseparated, rfl, by simp⟩
    · rintro ⟨front, last, hfits, hseparated, rfl, rfl⟩
      have hlast : last.WellFormed := hfits last (by simp)
      have hfront : ∀ p ∈ front, p.WellFormed := fun p hp => hfits p (by simp [hp])
      exact ⟨front, last.spell ++ '>' :: rest, (chain_parameters hlast).mpr ⟨hfront, hseparated⟩,
        by simp, last, hlast, rfl, rfl⟩
  constructor
  · intro h
    unfold Takes typeParameters at h
    split at h
    · obtain ⟨front, last, hfits, hseparated, rfl, rfl⟩ := (hsteps _).mp h
      exact ⟨hfits, hseparated, by simp [spellParameters], by simp⟩
    · next hopen =>
      cases h
      refine ⟨nofun, trivial, rfl, fun _ hhead => ?_⟩
      obtain ⟨more, rfl⟩ := List.head?_eq_some_iff.mp hhead
      exact hopen more rfl
  · rintro ⟨hfits, hseparated, rfl, hnil⟩
    rcases List.eq_nil_or_concat parameters with rfl | ⟨front, last, hconcat⟩
    · unfold Takes typeParameters
      rw [show spellParameters [] ++ rest = rest from rfl]
      split
      · exact absurd rfl (hnil rfl)
      · rfl
    · rw [List.concat_eq_append] at hconcat
      subst hconcat
      have htext : spellParameters (front ++ [last]) ++ rest =
          '<' :: ((front ++ [last]).flatMap TypeParameter.spell ++ '>' :: rest) := by
        simp [spellParameters]
      rw [htext]
      exact (hsteps _).mpr ⟨front, last, hfits, hseparated, rfl, rfl⟩

/-! ## Methods -/

theorem head_valueType (t : ValueType) : ∃ c more, t.spell = c :: more ∧ c ≠ ')' ∧ c ≠ 'V' := by
  cases t with
  | base b => cases b <;> exact ⟨_, [], rfl, by decide, by decide⟩
  | reference r =>
    obtain ⟨c, more, hhead, hc⟩ := head_reference r
    refine ⟨c, more, hhead, ?_⟩
    rcases hc with rfl | rfl | rfl <;> decide

theorem takes_parameterStep_next {read next : List ValueType} {text mid : List Char} :
    Takes (parameterStep read) text (.inl next) mid ↔
      ∃ a, a.WellFormed maxNesting ∧ next = read ++ [a] ∧ text = a.spell ++ mid := by
  unfold parameterStep
  rw [takes_peek]
  constructor
  · rintro ⟨c, more, rfl, h⟩
    rcases takes_ite.mp h with ⟨rfl, h⟩ | ⟨_, h⟩
    · rw [takes_advance] at h
      cases (takes_pure.mp h).1
    · exact (takes_put reads_valueType).mp h
  · rintro ⟨a, hfits, rfl, rfl⟩
    obtain ⟨c, more, hhead, hclose, _⟩ := head_valueType a
    refine ⟨c, more ++ mid, by simp [hhead], ?_⟩
    rw [if_neg hclose]
    exact (takes_put reads_valueType).mpr ⟨a, hfits, rfl, rfl⟩

theorem takes_parameterStep_done {read parameters : List ValueType} {text rest : List Char} :
    Takes (parameterStep read) text (.inr parameters) rest ↔
      parameters = read ∧ text = ')' :: rest := by
  unfold parameterStep
  rw [takes_peek]
  constructor
  · rintro ⟨c, more, rfl, h⟩
    rcases takes_ite.mp h with ⟨rfl, h⟩ | ⟨_, h⟩
    · rw [takes_advance] at h
      obtain ⟨heq, rfl⟩ := takes_pure.mp h
      cases heq
      exact ⟨rfl, rfl⟩
    · exact absurd h not_takes_put
  · rintro ⟨rfl, rfl⟩
    refine ⟨')', rest, rfl, ?_⟩
    rw [if_pos rfl]
    exact takes_advance.mpr (takes_pure.mpr ⟨rfl, rfl⟩)

theorem takes_parameters {parameters : List ValueType} {text rest : List Char} :
    Takes (steps parameterStep []) text parameters rest ↔
      (∀ t ∈ parameters, t.WellFormed maxNesting) ∧
        text = parameters.flatMap ValueType.spell ++ ')' :: rest := by
  have hspell : ∀ t : ValueType, t.spell ≠ [] := by
    intro t
    obtain ⟨c, more, hhead, _⟩ := head_valueType t
    simp [hhead]
  rw [takes_list (fun _ _ _ _ => takes_parameterStep_next)
    (fun _ _ _ _ => takes_parameterStep_done) hspell]
  constructor
  · rintro ⟨items, tail, hitems, rfl, rfl, rfl⟩
    exact ⟨hitems, rfl⟩
  · rintro ⟨hitems, rfl⟩
    exact ⟨parameters, ')' :: rest, hitems, rfl, rfl, rfl⟩

theorem takes_result {returned : Option ValueType} {text rest : List Char} :
    Takes result text returned rest ↔ (∀ t ∈ returned, t.WellFormed maxNesting) ∧
      text = (returned.map ValueType.spell).getD ['V'] ++ rest := by
  unfold result
  rw [takes_peek]
  constructor
  · rintro ⟨c, more, rfl, h⟩
    rcases takes_ite.mp h with ⟨rfl, h⟩ | ⟨_, h⟩
    · rw [takes_advance] at h
      obtain ⟨rfl, rfl⟩ := takes_pure.mp h
      exact ⟨nofun, rfl⟩
    · obtain ⟨t, mid, ht, hput⟩ := takes_bind.mp h
      obtain ⟨rfl, rfl⟩ := takes_pure.mp hput
      obtain ⟨hfits, htext⟩ := (reads_valueType _ _ _).mp ht
      refine ⟨?_, htext⟩
      rintro t' ⟨⟩
      exact hfits
  · rintro ⟨hfits, rfl⟩
    cases returned with
    | none => exact ⟨'V', rest, rfl, takes_advance.mpr (takes_pure.mpr ⟨rfl, rfl⟩)⟩
    | some t =>
      obtain ⟨c, more, hhead, _, hvoid⟩ := head_valueType t
      refine ⟨c, more ++ rest, by simp [hhead], ?_⟩
      rw [if_neg hvoid]
      refine takes_bind.mpr ⟨t, rest, ?_, takes_pure.mpr ⟨rfl, rfl⟩⟩
      exact (reads_valueType _ _ _).mpr ⟨hfits t rfl, rfl⟩

theorem reads_thrownType : Reads thrownType (fun t => t.toReference.WellFormed maxNesting)
    (fun t => '^' :: t.toReference.spell) := by
  intro text thrown rest
  unfold thrownType
  rw [takes_expect_bind]
  constructor
  · rintro ⟨more, rfl, h⟩
    obtain ⟨c, more', rfl, hbehind⟩ := takes_peek.mp h
    split at hbehind
    · obtain ⟨d, mid, hd, hput⟩ := takes_bind.mp hbehind
      obtain ⟨rfl, rfl⟩ := takes_pure.mp hput
      obtain ⟨hfits, htext⟩ := (reads_classType _ _ _).mp hd
      exact ⟨hfits, by rw [htext]; rfl⟩
    · obtain ⟨n, mid, hn, hput⟩ := takes_bind.mp hbehind
      obtain ⟨rfl, rfl⟩ := takes_pure.mp hput
      obtain ⟨hfits, htext⟩ := takes_typeVariable.mp hn
      exact ⟨hfits, by simp [htext, ThrownType.toReference, ReferenceType.spell]⟩
    · exact absurd hbehind not_takes_unexpected
  · rintro ⟨hfits, rfl⟩
    refine ⟨thrown.toReference.spell ++ rest, rfl, ?_⟩
    cases thrown with
    | classType c =>
      obtain ⟨more, hhead⟩ := head_classType c
      have htext : (ThrownType.classType c).toReference.spell ++ rest = 'L' :: (more ++ rest) := by
        show c.spell ++ rest = _
        rw [hhead]
        rfl
      refine takes_peek.mpr ⟨'L', more ++ rest, htext, ?_⟩
      refine takes_bind.mpr ⟨c, rest, ?_, takes_pure.mpr ⟨rfl, rfl⟩⟩
      exact (reads_classType _ _ _).mpr ⟨hfits, rfl⟩
    | typeVariable n =>
      refine takes_peek.mpr ⟨'T', n.toList ++ [';'] ++ rest, rfl, ?_⟩
      refine takes_bind.mpr ⟨n, rest, ?_, takes_pure.mpr ⟨rfl, rfl⟩⟩
      exact takes_typeVariable.mpr
        ⟨hfits, by simp [ThrownType.toReference, ReferenceType.spell]⟩

/-! ## Whole texts -/

theorem takes_classSignature {s : ClassSignature} {text rest : List Char} :
    Takes classSignature text s rest ↔
      s.WellFormed ∧ Separated s.typeParameters ∧ text = s.spell ∧ rest = [] := by
  have hspell : ∀ c : ClassType, c.spell ≠ [] := by
    intro c
    obtain ⟨more, hhead⟩ := head_classType c
    simp [hhead]
  unfold classSignature
  rw [takes_bind]
  constructor
  · rintro ⟨parameters, mid, hparameters, h⟩
    obtain ⟨superclass, mid', hsuperclass, hothers⟩ := takes_bind.mp h
    obtain ⟨interfaces, mid'', hinterfaces, hput⟩ := takes_bind.mp hothers
    obtain ⟨rfl, rfl⟩ := takes_pure.mp hput
    obtain ⟨hfitsInterfaces, rfl, rfl⟩ :=
      (takes_toEnd reads_classType hspell).mp hinterfaces
    obtain ⟨hfitsSuperclass, rfl⟩ := (reads_classType _ _ _).mp hsuperclass
    obtain ⟨hfitsParameters, hseparated, rfl, _⟩ := takes_typeParameters.mp hparameters
    exact ⟨⟨hfitsParameters, hfitsSuperclass, hfitsInterfaces⟩, hseparated,
      by simp [ClassSignature.spell], rfl⟩
  · rintro ⟨hfits, hseparated, rfl, rfl⟩
    refine ⟨s.typeParameters, s.superclass.spell ++ s.interfaces.flatMap ClassType.spell, ?_, ?_⟩
    · refine takes_typeParameters.mpr
        ⟨hfits.typeParameters, hseparated, by simp [ClassSignature.spell], fun _ => ?_⟩
      obtain ⟨more, hhead⟩ := head_classType s.superclass
      simp [hhead]
    refine takes_bind.mpr ⟨s.superclass, s.interfaces.flatMap ClassType.spell, ?_, ?_⟩
    · exact (reads_classType _ _ _).mpr ⟨hfits.superclass, rfl⟩
    refine takes_bind.mpr ⟨s.interfaces, [], ?_, takes_pure.mpr ⟨rfl, rfl⟩⟩
    exact (takes_toEnd reads_classType hspell).mpr ⟨hfits.interfaces, rfl, rfl⟩

theorem takes_methodSignature {s : MethodSignature} {text rest : List Char} :
    Takes methodSignature text s rest ↔
      s.WellFormed ∧ Separated s.typeParameters ∧ text = s.spell ∧ rest = [] := by
  unfold methodSignature
  rw [takes_bind]
  constructor
  · rintro ⟨typeParams, mid, htypeParams, h⟩
    obtain ⟨more, rfl, hbehind⟩ := takes_expect_bind.mp h
    obtain ⟨parameters, mid', hparameters, hreturned⟩ := takes_bind.mp hbehind
    obtain ⟨returned, mid'', hresult, hothers⟩ := takes_bind.mp hreturned
    obtain ⟨throws, mid''', hthrows, hput⟩ := takes_bind.mp hothers
    obtain ⟨rfl, rfl⟩ := takes_pure.mp hput
    obtain ⟨hfitsThrows, rfl, rfl⟩ :=
      (takes_toEnd reads_thrownType fun _ => List.cons_ne_nil _ _).mp hthrows
    obtain ⟨hfitsResult, rfl⟩ := takes_result.mp hresult
    obtain ⟨hfitsParameters, rfl⟩ := takes_parameters.mp hparameters
    obtain ⟨hfitsTypes, hseparated, rfl, _⟩ := takes_typeParameters.mp htypeParams
    exact ⟨⟨hfitsTypes, hfitsParameters, hfitsResult, hfitsThrows⟩, hseparated,
      by simp [MethodSignature.spell], rfl⟩
  · rintro ⟨hfits, hseparated, rfl, rfl⟩
    -- The texts behind the parenthesis, the parameters and the result.
    refine ⟨s.typeParameters, '(' :: (s.parameters.flatMap ValueType.spell ++ ')' ::
      ((s.result.map ValueType.spell).getD ['V'] ++
        s.throws.flatMap fun t => '^' :: t.toReference.spell)), ?_, ?_⟩
    · exact takes_typeParameters.mpr
        ⟨hfits.typeParameters, hseparated, by simp [MethodSignature.spell], by simp⟩
    refine takes_expect_bind.mpr ⟨_, rfl, takes_bind.mpr ⟨s.parameters,
      (s.result.map ValueType.spell).getD ['V'] ++
        s.throws.flatMap (fun t => '^' :: t.toReference.spell), ?_, ?_⟩⟩
    · exact takes_parameters.mpr ⟨hfits.parameters, rfl⟩
    refine takes_bind.mpr
      ⟨s.result, s.throws.flatMap (fun t => '^' :: t.toReference.spell), ?_, ?_⟩
    · exact takes_result.mpr ⟨hfits.result, rfl⟩
    refine takes_bind.mpr ⟨s.throws, [], ?_, takes_pure.mpr ⟨rfl, rfl⟩⟩
    exact (takes_toEnd reads_thrownType fun _ => List.cons_ne_nil _ _).mpr
      ⟨hfits.throws, rfl, rfl⟩

theorem parse_eq_ok {α : Type} {reader : Parser α} {text : String} {a : α} :
    parse reader text = .ok a ↔ Takes reader text.toList a [] := by
  unfold parse Takes
  split
  · next h => simp [h]
  · next rest hrest h =>
    rw [h]
    simpa using fun _ => hrest
  · next h => simp [h]

/-- The three readers of whole texts take the spellings of well formed signatures and nothing
else, except that a type parameter without bounds takes the name of the next one for its class
bound if it begins as a type does. -/
theorem reading_is_the_inverse_of_spelling :
    (∀ text s, ClassSignature.parse text = .ok s ↔
      s.WellFormed ∧ Separated s.typeParameters ∧ text.toList = s.spell) ∧
    (∀ text s, MethodSignature.parse text = .ok s ↔
      s.WellFormed ∧ Separated s.typeParameters ∧ text.toList = s.spell) ∧
    (∀ text t, ValueType.parse text = .ok t ↔
      t.WellFormed maxNesting ∧ text.toList = t.spell) := by
  refine ⟨fun text s => ?_, fun text s => ?_, fun text t => ?_⟩
  · unfold ClassSignature.parse
    rw [parse_eq_ok, takes_classSignature]
    simp only [and_true]
  · unfold MethodSignature.parse
    rw [parse_eq_ok, takes_methodSignature]
    simp only [and_true]
  · unfold ValueType.parse
    rw [parse_eq_ok, reads_valueType, List.append_nil]

example : ValueType.parse "[Lp/C<*>.D;" = .ok (.reference (.array (.reference (.classType
    (.inner (.topLevel ["p"] "C" [.any]) "D" []))))) := by cbv

/-- A class over type parameters that have no bounds. -/
def overBareParameters : ClassSignature where
  typeParameters := [⟨"A", none, []⟩, ⟨"T", none, []⟩]
  superclass := .topLevel ["p"] "C" []
  interfaces := []

/-- A well formed signature whose spelling is no signature: the second name is read as a type
variable, which has no name of its own. -/
theorem a_name_is_read_as_a_bound :
    overBareParameters.WellFormed ∧ "<A:T:>Lp/C;".toList = overBareParameters.spell ∧
      ClassSignature.parse "<A:T:>Lp/C;" = .error (.emptyName 4) := by
  have hbare : ∀ name, IsName name → TypeParameter.WellFormed ⟨name, none, []⟩ :=
    fun name hname => ⟨hname, nofun, nofun⟩
  have hA : IsName "A" := by simp [IsName, endsName]
  have hT : IsName "T" := by simp [IsName, endsName]
  have hp : IsName "p" := by simp [IsName, endsName]
  have hC : IsName "C" := by simp [IsName, endsName]
  refine ⟨⟨?_, ?_, nofun⟩, by rfl, by cbv⟩
  · simpa [overBareParameters] using ⟨hbare "A" hA, hbare "T" hT⟩
  · exact ⟨by simpa using hp, hC, trivial⟩

end ClassAtlas.Signature
