-- What becomes of each recorded definition when several may arrive at one place. The
-- outcome of a call and the winner of a name are told by the order of the calls alone.
import Mathlib.Data.List.Induction
import ClassAtlas.Proofs.Graph.Slots

namespace ClassAtlas

/-! ## Winners -/

/-- The definition between two parts of a run is the first of its name: it arrives before all
those that were recorded earlier, and none that was recorded later arrives before it. -/
structure Wins (before : List Definition) (d : Definition) (after : List Definition) : Prop where
  earlier : ∀ c ∈ before, c.name = d.name → d.provenance.precedes c.provenance
  later : ∀ c ∈ after, c.name = d.name → c.provenance.precedes d.provenance = false

/-- Somewhere in a run the definition is recorded, and there it is the first of its name. -/
def Counts (definitions : List Definition) (d : Definition) : Prop :=
  ∃ before after, definitions = before ++ d :: after ∧ Wins before d after

/-- What an outcome says of a definition and of those that were recorded earlier. -/
def RecordOutcome.Means (earlier : List Definition) (d : Definition) : RecordOutcome → Prop
  | recorded => ∀ c ∈ earlier, c.name ≠ d.name
  | displaced => (∃ c ∈ earlier, c.name = d.name) ∧
      ∀ c ∈ earlier, c.name = d.name → d.provenance.precedes c.provenance
  | shadowed => ∃ c ∈ earlier, c.name = d.name ∧ d.provenance.precedes c.provenance = false

theorem Provenance.precedes_of_not_precedes {a b c : Provenance} (hab : a.precedes b)
    (hcb : c.precedes b = false) : a.precedes c := by
  rw [Bool.eq_false_iff, ne_eq, precedes_iff] at hcb
  rw [precedes_iff] at *
  omega

theorem RecordOutcome.Means.unique {earlier : List Definition} {d : Definition}
    {o o' : RecordOutcome} (h : o.Means earlier d) (h' : o'.Means earlier d) : o = o' := by
  let Known := ∃ c ∈ earlier, c.name = d.name
  let First := ∀ c ∈ earlier, c.name = d.name → d.provenance.precedes c.provenance
  have hrecorded : recorded.Means earlier d ↔ ¬ Known := by simp [Known, Means]
  have hdisplaced : displaced.Means earlier d ↔ Known ∧ First := Iff.rfl
  have hshadowed : shadowed.Means earlier d ↔ Known ∧ ¬ First := by
    simp only [Means, Known, First, not_forall, Bool.not_eq_true]
    constructor
    · rintro ⟨c, hc, hname, hlater⟩
      exact ⟨⟨c, hc, hname⟩, c, hc, hname, hlater⟩
    · rintro ⟨_, c, hc, hname, hlater⟩
      exact ⟨c, hc, hname, hlater⟩
  cases o <;> cases o' <;> simp_all

/-- Two definitions of one name that win are recorded by one call. -/
theorem Wins.unique {before after before' after' : List Definition} {d d' : Definition}
    (h : Wins before d after) (h' : Wins before' d' after') (hname : d.name = d'.name)
    (heq : before ++ d :: after = before' ++ d' :: after') :
    before = before' ∧ d = d' ∧ after = after' := by
  have hclash : ∀ {front back front' back' : List Definition} {c c' : Definition},
      Wins front c back → Wins front' c' back' → c.name = c'.name → c' ∈ back → c ∉ front' := by
    intro front back front' back' c c' hc hc' hname hlater hearlier
    have hfirst := hc'.earlier c hearlier hname
    rw [hc.later c' hlater hname.symm] at hfirst
    cases hfirst
  rcases List.append_eq_append_iff.mp heq with ⟨mid, hmid, hrest⟩ | ⟨mid, hmid, hrest⟩
  · cases mid with
    | nil => simp_all
    | cons c mid =>
      obtain ⟨rfl, hafter⟩ := List.cons.inj hrest
      exact absurd (by simp [hmid]) (hclash h h' hname (by simp [hafter]))
  · cases mid with
    | nil => simp_all
    | cons c mid =>
      obtain ⟨rfl, hafter⟩ := List.cons.inj hrest
      exact absurd (by simp [hmid]) (hclash h' h hname.symm (by simp [hafter]))

theorem Counts.unique {definitions : List Definition} {d d' : Definition}
    (h : Counts definitions d) (h' : Counts definitions d') (hname : d.name = d'.name) : d = d' := by
  obtain ⟨before, after, heq, hwins⟩ := h
  obtain ⟨before', after', heq', hwins'⟩ := h'
  exact (hwins.unique hwins' hname (heq.symm.trans heq')).2.1

theorem Counts.mem {definitions : List Definition} {d : Definition} (h : Counts definitions d) :
    d ∈ definitions := by
  obtain ⟨before, after, rfl, _⟩ := h
  simp

theorem Wins.last {before : List Definition} {d : Definition}
    (h : ∀ c ∈ before, c.name = d.name → d.provenance.precedes c.provenance) : Wins before d [] :=
  ⟨h, by simp⟩

/-- A winner stays one when a definition follows that does not arrive before it. -/
theorem Wins.snoc {before after : List Definition} {a d : Definition} (h : Wins before a after)
    (hlater : d.name = a.name → d.provenance.precedes a.provenance = false) :
    Wins before a (after ++ [d]) := by
  refine ⟨h.earlier, fun c hc hname => ?_⟩
  rcases List.mem_append.mp hc with hc | hc
  · exact h.later c hc hname
  · rw [List.mem_singleton.mp hc] at hname ⊢
    exact hlater hname

/-- Of definitions with distinct names each counts. -/
theorem counts_of_mem {definitions : List Definition} {d : Definition}
    (hnames : (definitions.map Definition.name).Nodup) (hd : d ∈ definitions) :
    Counts definitions d := by
  obtain ⟨before, after, rfl⟩ := List.append_of_mem hd
  rw [List.map_append, List.map_cons] at hnames
  obtain ⟨_, hback, hfront⟩ := List.nodup_append.mp hnames
  refine ⟨before, after, rfl, fun c hc hname => ?_, fun c hc hname => ?_⟩
  · exact absurd hname (hfront _ (List.mem_map_of_mem hc) _ List.mem_cons_self)
  · exact absurd (List.mem_map.mpr ⟨c, hc, hname⟩) (List.nodup_cons.mp hback).1

theorem Wins.counts {before after : List Definition} {d : Definition} (h : Wins before d after) :
    Counts (before ++ d :: after) d := ⟨before, after, rfl, h⟩

namespace GraphBuilder

/-! ## The outcome of a call -/

theorem recordAll_snoc (b : GraphBuilder) (definitions : List Definition) (d : Definition) :
    b.recordAll (definitions ++ [d]) = (b.recordAll definitions).record d := by
  simp [recordAll]

theorem means_outcome {b : GraphBuilder} {earlier : List Definition} (h : Holds b.slots earlier)
    (d : Definition) : (b.outcome d).Means earlier d := by
  unfold outcome
  cases hfind : b.slots.find? fun s => s.name = d.name with
  | none =>
    intro c hc hname
    obtain ⟨s, hs, hcs⟩ := h.mem_iff.mp hc
    have hne := List.find?_eq_none.mp hfind s hs
    exact hne (by simpa [← (h.wellFormed s hs).name_eq hcs] using hname)
  | some slot =>
    have hslot : slot ∈ b.slots := List.mem_of_find?_eq_some hfind
    have hname : slot.name = d.name := by simpa using List.find?_some hfind
    have hfirst := h.authoritative hslot
    dsimp only
    split
    · rename_i hprecedes
      refine ⟨⟨slot.authoritative, hfirst.mem, hname⟩, ?_⟩
      intro c hc hc'
      exact Provenance.precedes_of_not_precedes hprecedes (hfirst.first c hc (hc'.trans hname.symm))
    · rename_i hprecedes
      exact ⟨slot.authoritative, hfirst.mem, hname, Bool.eq_false_iff.mpr hprecedes⟩

/-- The outcome of a call is the only one whose meaning holds. -/
theorem outcome_eq_iff (earlier : List Definition) (d : Definition) (o : RecordOutcome) :
    (empty.recordAll earlier).outcome d = o ↔ o.Means earlier d := by
  have hmeans := means_outcome (holds_run earlier) d
  constructor
  · rintro rfl
    exact hmeans
  · exact fun ho => hmeans.unique ho

/-! ## The winners of a run -/

theorem mem_insert_cases {d : Definition} {slots : List Slot} (hnames : (slots.map Slot.name).Nodup)
    {t : Slot} (ht : t ∈ insert d slots) :
    (t ∈ slots ∧ t.name ≠ d.name) ∨ (∃ s ∈ slots, s.name = d.name ∧ t = extendSlot s d) ∨
      d.name ∉ slots.map Slot.name ∧ t = ⟨d, d.record.edges, []⟩ := by
  induction slots with
  | nil => exact Or.inr (Or.inr ⟨by simp, List.mem_singleton.mp ht⟩)
  | cons s rest ih =>
    obtain ⟨hnot, hrest⟩ := List.nodup_cons.mp hnames
    unfold insert at ht
    by_cases hname : s.name = d.name
    · rw [if_pos hname] at ht
      rcases List.mem_cons.mp ht with rfl | ht
      · exact Or.inr (Or.inl ⟨s, List.mem_cons_self, hname, rfl⟩)
      · refine Or.inl ⟨List.mem_cons_of_mem _ ht, ?_⟩
        intro heq
        exact hnot (List.mem_map.mpr ⟨t, ht, heq.trans hname.symm⟩)
    · rw [if_neg hname] at ht
      rcases List.mem_cons.mp ht with rfl | ht
      · exact Or.inl ⟨List.mem_cons_self, hname⟩
      · rcases ih hrest ht with ⟨hmem, hne⟩ | ⟨u, hu, heq⟩ | ⟨hnew, heq⟩
        · exact Or.inl ⟨List.mem_cons_of_mem _ hmem, hne⟩
        · exact Or.inr (Or.inl ⟨u, List.mem_cons_of_mem _ hu, heq⟩)
        · exact Or.inr (Or.inr ⟨by simp [hnew, Ne.symm hname], heq⟩)

section

variable {slots : List Slot} {definitions : List Definition} (h : Holds slots definitions)
  {d : Definition}

include h

theorem Holds.wins_of_precedes {s : Slot} (hs : s ∈ slots) (hname : s.name = d.name)
    (hprecedes : d.provenance.precedes s.authoritative.provenance) : Wins definitions d [] := by
  refine .last fun c hc hcd => ?_
  have hfirst := (h.authoritative hs).first c hc (hcd.trans hname.symm)
  exact Provenance.precedes_of_not_precedes hprecedes hfirst

theorem Holds.wins_of_new (hnew : d.name ∉ slots.map Slot.name) : Wins definitions d [] := by
  refine .last fun c hc hcd => ?_
  obtain ⟨s, hs, hcs⟩ := h.mem_iff.mp hc
  have hname : s.name = d.name := ((h.wellFormed s hs).name_eq hcs).symm.trans hcd
  exact absurd (List.mem_map.mpr ⟨s, hs, hname⟩) hnew

end

theorem counts_authoritative (definitions : List Definition) :
    ∀ s ∈ (empty.recordAll definitions).slots, Counts definitions s.authoritative := by
  induction definitions using List.reverseRecOn with
  | nil => simp [recordAll, empty]
  | append_singleton definitions d ih =>
    have h := holds_run definitions
    have hkeep : ∀ s ∈ (empty.recordAll definitions).slots,
        (d.name = s.authoritative.name →
          d.provenance.precedes s.authoritative.provenance = false) →
        Counts (definitions ++ [d]) s.authoritative := by
      intro s hs hlater
      obtain ⟨before, after, rfl, hwins⟩ := ih s hs
      simpa using (hwins.snoc hlater).counts
    intro t ht
    rw [recordAll_snoc] at ht
    rcases mem_insert_cases h.names ht with ⟨hmem, hne⟩ | ⟨s, hs, hname, rfl⟩ | ⟨hnew, rfl⟩
    · exact hkeep t hmem fun hname => absurd hname.symm hne
    · unfold extendSlot
      split
      · rename_i hprecedes
        exact (h.wins_of_precedes hs hname hprecedes).counts
      · rename_i hprecedes
        exact hkeep s hs fun _ => Bool.eq_false_iff.mpr hprecedes
    · exact (h.wins_of_new hnew).counts

/-- The authoritative definitions are the winners of the run. -/
theorem mem_authoritative_iff {definitions : List Definition} {d : Definition} :
    d ∈ (empty.recordAll definitions).slots.map Slot.authoritative ↔ Counts definitions d := by
  have h := holds_run definitions
  constructor
  · intro hd
    obtain ⟨s, hs, rfl⟩ := List.mem_map.mp hd
    exact counts_authoritative definitions s hs
  · intro hd
    obtain ⟨s, hs, hds⟩ := h.mem_iff.mp hd.mem
    have hname : s.authoritative.name = d.name := ((h.wellFormed s hs).name_eq hds).symm
    have heq := (counts_authoritative definitions s hs).unique hd hname
    exact List.mem_map.mpr ⟨s, hs, heq⟩

end GraphBuilder

end ClassAtlas
