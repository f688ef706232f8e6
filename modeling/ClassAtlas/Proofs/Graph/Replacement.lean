-- Two runs that differ in one definition, which has the same name and arrives at the same
-- place in both. As soon as it has lost, the slots differ in one shadow, and sorting by
-- arrival keeps that difference in its place.
import ClassAtlas.Graph.Freeze
import ClassAtlas.Proofs.Graph.Outcomes

namespace ClassAtlas

/-! ## One place of a list -/

/-- The two lists are the same but for one place, where one has `x` and the other `x'`. -/
def Replaced {α : Type} (x x' : α) (l l' : List α) : Prop :=
  ∃ front back, l = front ++ x :: back ∧ l' = front ++ x' :: back

namespace Replaced

variable {α β : Type} {x x' : α} {l l' : List α}

theorem append_left (h : Replaced x x' l l') (more : List α) :
    Replaced x x' (more ++ l) (more ++ l') := by
  obtain ⟨front, back, rfl, rfl⟩ := h
  exact ⟨more ++ front, back, by simp, by simp⟩

theorem append_right (h : Replaced x x' l l') (more : List α) :
    Replaced x x' (l ++ more) (l' ++ more) := by
  obtain ⟨front, back, rfl, rfl⟩ := h
  exact ⟨front, back ++ more, by simp, by simp⟩

theorem cons (h : Replaced x x' l l') (y : α) : Replaced x x' (y :: l) (y :: l') :=
  h.append_left [y]

theorem map (h : Replaced x x' l l') (f : α → β) : Replaced (f x) (f x') (l.map f) (l'.map f) := by
  obtain ⟨front, back, rfl, rfl⟩ := h
  exact ⟨front.map f, back.map f, by simp, by simp⟩

theorem flatMap (h : Replaced x x' l l') (f : α → List β) {y y' : β}
    (hf : Replaced y y' (f x) (f x')) : Replaced y y' (l.flatMap f) (l'.flatMap f) := by
  obtain ⟨front, back, rfl, rfl⟩ := h
  simpa using (hf.append_right (back.flatMap f)).append_left (front.flatMap f)

/-- What does not look at the place of the difference is the same. -/
theorem map_eq (h : Replaced x x' l l') (f : α → β) (hf : f x = f x') : l.map f = l'.map f := by
  obtain ⟨front, back, rfl, rfl⟩ := h
  simp [hf]

/-- Sorting moves the two to one place, if they arrive at one place. -/
theorem mergeSort (h : Replaced x x' l l') (provenance : α → Provenance)
    (hkey : provenance x = provenance x') :
    Replaced x x' (l.mergeSort fun a b => GraphBuilder.arrivesInOrder (provenance a) (provenance b))
      (l'.mergeSort fun a b => GraphBuilder.arrivesInOrder (provenance a) (provenance b)) := by
  obtain ⟨front, back, rfl, rfl⟩ := h
  -- Both lists are sorted at once, as a list of pairs.
  let inOrder := fun a b : α => GraphBuilder.arrivesInOrder (provenance a) (provenance b)
  let pairs := front.map (fun a => (a, a)) ++ (x, x') :: back.map fun a => (a, a)
  let sorted := pairs.mergeSort fun p q => inOrder p.1 q.1
  have hsame : ∀ p ∈ pairs, provenance p.1 = provenance p.2 := by
    intro p hp
    simp only [pairs, List.mem_append, List.mem_map, List.mem_cons] at hp
    rcases hp with ⟨a, _, rfl⟩ | rfl | ⟨a, _, rfl⟩
    · rfl
    · exact hkey
    · rfl
  have hfst : sorted.map Prod.fst = (front ++ x :: back).mergeSort inOrder := by
    rw [List.map_mergeSort (s := inOrder) fun p _ q _ => rfl]
    simp [pairs, Function.comp_def]
  have hsnd : sorted.map Prod.snd = (front ++ x' :: back).mergeSort inOrder := by
    rw [List.map_mergeSort (s := inOrder) fun p hp q hq => by
      simp only [inOrder, hsame p hp, hsame q hq]]
    simp [pairs, Function.comp_def]
  have hmem : (x, x') ∈ sorted := List.mem_mergeSort.mpr (by simp [pairs])
  obtain ⟨before, after, hsorted⟩ := List.append_of_mem hmem
  have hperm : (before ++ after).Perm (front.map (fun a => (a, a)) ++ back.map fun a => (a, a)) := by
    have hall : sorted.Perm pairs := List.mergeSort_perm _ _
    rw [hsorted] at hall
    exact (List.perm_middle.symm.trans (hall.trans List.perm_middle)).cons_inv
  have hdiagonal : ∀ p ∈ before ++ after, p.2 = p.1 := by
    intro p hp
    have hp' := hperm.mem_iff.mp hp
    simp only [List.mem_append, List.mem_map] at hp'
    rcases hp' with ⟨a, _, rfl⟩ | ⟨a, _, rfl⟩ <;> rfl
  refine ⟨before.map Prod.fst, after.map Prod.fst, ?_, ?_⟩
  · show (front ++ x :: back).mergeSort inOrder = _
    rw [← hfst, hsorted]
    simp
  · have hbefore : before.map Prod.snd = before.map Prod.fst :=
      List.map_congr_left fun p hp => hdiagonal p (List.mem_append_left _ hp)
    have hafter : after.map Prod.snd = after.map Prod.fst :=
      List.map_congr_left fun p hp => hdiagonal p (List.mem_append_right _ hp)
    show (front ++ x' :: back).mergeSort inOrder = _
    rw [← hsnd, hsorted, List.map_append, List.map_cons, hbefore, hafter]

end Replaced

theorem eq_of_perm_of_map_eq {α β : Type} (f : α → β) {l l' : List α} (hperm : l.Perm l')
    (hnodup : (l.map f).Nodup) (hmap : l.map f = l'.map f) : l = l' := by
  induction l generalizing l' with
  | nil => exact hperm.nil_eq
  | cons x rest ih =>
    cases l' with
    | nil => cases hmap
    | cons y rest' =>
      obtain ⟨hhead, htail⟩ := List.cons.inj hmap
      have hy : y ∈ x :: rest := hperm.mem_iff.mpr List.mem_cons_self
      have hxy : x = y := List.inj_on_of_nodup_map hnodup List.mem_cons_self hy hhead
      subst hxy
      rw [ih hperm.cons_inv (List.nodup_cons.mp hnodup).2 htail]

/-! ## One definition of a run -/

/-- One slot has `d` where the other has `d'`: as its authoritative definition, which it can
be only while `wins` holds, or among its shadows. -/
inductive Exchanged (d d' : Definition) (wins : Prop) : Slot → Slot → Prop
  | authoritative (shadows : List Definition) (h : wins) :
      Exchanged d d' wins ⟨d, d.record.edges, shadows⟩ ⟨d', d'.record.edges, shadows⟩
  | shadow (a : Definition) (edges : List Edge) {shadows shadows' : List Definition}
      (h : Replaced d d' shadows shadows') :
      Exchanged d d' wins ⟨a, edges, shadows⟩ ⟨a, edges, shadows'⟩

/-- Two lists of slots that differ in one slot. -/
def SlotsExchanged (d d' : Definition) (wins : Prop) (slots slots' : List Slot) : Prop :=
  ∃ s s', Exchanged d d' wins s s' ∧ Replaced s s' slots slots'

theorem Exchanged.mono {d d' : Definition} {wins wins' : Prop} {s s' : Slot}
    (hwins : s.name = d.name → wins → wins') (h : Exchanged d d' wins s s') :
    Exchanged d d' wins' s s' := by
  cases h with
  | authoritative shadows h => exact .authoritative shadows (hwins rfl h)
  | shadow a edges h => exact .shadow a edges h

/-- Extending the two slots by one more definition keeps the difference. -/
theorem Exchanged.extendSlot {c d d' : Definition} {wins wins' : Prop} {s s' : Slot}
    (hprovenance : d'.provenance = d.provenance)
    (hkeep : wins → c.provenance.precedes d.provenance = false → wins')
    (h : Exchanged d d' wins s s') :
    Exchanged d d' wins' (GraphBuilder.extendSlot s c) (GraphBuilder.extendSlot s' c) := by
  unfold GraphBuilder.extendSlot
  cases h with
  | authoritative shadows hwins =>
    dsimp only
    rw [hprovenance]
    split
    · exact .shadow c _ ⟨shadows, [], rfl, rfl⟩
    · rename_i hprecedes
      exact .authoritative _ (hkeep hwins (Bool.eq_false_iff.mpr hprecedes))
  | shadow a edges hshadows =>
    dsimp only
    split
    · exact .shadow c _ (hshadows.append_right [a])
    · exact .shadow a edges (hshadows.append_right [c])

theorem Exchanged.name_eq {d d' : Definition} {wins : Prop} {s s' : Slot}
    (hname : d'.name = d.name) (h : Exchanged d d' wins s s') : s'.name = s.name := by
  cases h with
  | authoritative shadows _ => exact hname
  | shadow a _ _ => rfl

theorem SlotsExchanged.cons {d d' : Definition} {wins : Prop} {slots slots' : List Slot} (t : Slot)
    (h : SlotsExchanged d d' wins slots slots') :
    SlotsExchanged d d' wins (t :: slots) (t :: slots') := by
  obtain ⟨s, s', hs, hslots⟩ := h
  exact ⟨s, s', hs, hslots.cons t⟩

theorem SlotsExchanged.head {d d' : Definition} {wins : Prop} {s s' : Slot}
    (h : Exchanged d d' wins s s') (rest : List Slot) :
    SlotsExchanged d d' wins (s :: rest) (s' :: rest) := ⟨s, s', h, [], rest, rfl, rfl⟩

namespace GraphBuilder

section

variable {d d' : Definition} (hname : d'.name = d.name) (hprovenance : d'.provenance = d.provenance)

include hname hprovenance

/-- Recording `d` in one run and `d'` in the other makes the difference. -/
theorem slotsExchanged_insert_both {wins : Prop} {slots : List Slot}
    (hwins : ∀ s ∈ slots, s.name = d.name →
      d.provenance.precedes s.authoritative.provenance → wins)
    (hnew : d.name ∉ slots.map Slot.name → wins) :
    SlotsExchanged d d' wins (insert d slots) (insert d' slots) := by
  induction slots with
  | nil => exact .head (.authoritative [] (hnew (by simp))) []
  | cons s rest ih =>
    unfold insert
    rw [hname]
    split
    · rename_i hs
      refine .head ?_ rest
      unfold extendSlot
      rw [hprovenance]
      split
      · rename_i hprecedes
        exact .authoritative _ (hwins s List.mem_cons_self hs hprecedes)
      · exact .shadow _ _ ⟨s.shadows, [], rfl, rfl⟩
    · rename_i hs
      refine (ih ?_ ?_).cons s
      · exact fun t ht => hwins t (List.mem_cons_of_mem _ ht)
      · exact fun h => hnew (by simp [h, Ne.symm hs])

/-- Recording another definition in both runs keeps the difference. -/
theorem slotsExchanged_insert {c : Definition} {wins wins' : Prop} {slots slots' : List Slot}
    (hnames : (slots.map Slot.name).Nodup)
    (hkeep : wins → (c.name = d.name → c.provenance.precedes d.provenance = false) → wins')
    (h : SlotsExchanged d d' wins slots slots') :
    SlotsExchanged d d' wins' (insert c slots) (insert c slots') := by
  obtain ⟨s, s', hs, front, back, rfl, rfl⟩ := h
  have hsname := hs.name_eq hname
  induction front with
  | nil =>
    rw [List.nil_append, List.nil_append]
    unfold insert
    rw [hsname]
    split
    · exact .head (hs.extendSlot hprovenance fun hwins hlater => hkeep hwins fun _ => hlater) back
    · rename_i hc
      refine .head (hs.mono fun hsd hwins => ?_) (insert c back)
      exact hkeep hwins fun heq => absurd (hsd.trans heq.symm) hc
  | cons t front ih =>
    obtain ⟨hnot, hrest⟩ := List.nodup_cons.mp hnames
    rw [List.cons_append, List.cons_append]
    unfold insert
    split
    · rename_i hc
      refine ⟨s, s', hs.mono fun hsd hwins => ?_, extendSlot t c :: front, back, rfl, rfl⟩
      refine hkeep hwins fun heq => absurd ?_ hnot
      exact List.mem_map.mpr ⟨s, by simp, hsd.trans (heq.symm.trans hc.symm)⟩
    · exact (ih hrest).cons t

/-- After a run the two lists of slots differ in a slot, and there in a shadow unless `d` won. -/
theorem slotsExchanged_run (before after : List Definition) :
    SlotsExchanged d d' (Wins before d after) (empty.recordAll (before ++ d :: after)).slots
      (empty.recordAll (before ++ d' :: after)).slots := by
  induction after using List.reverseRecOn with
  | nil =>
    have h := holds_run before
    rw [recordAll_snoc, recordAll_snoc]
    exact slotsExchanged_insert_both hname hprovenance (fun s hs => h.wins_of_precedes hs)
      h.wins_of_new
  | append_singleton after c ih =>
    rw [← List.cons_append, ← List.append_assoc, ← List.cons_append, ← List.append_assoc,
      recordAll_snoc, recordAll_snoc]
    exact slotsExchanged_insert hname hprovenance (holds_run _).names
      (fun hwins hlater => hwins.snoc hlater) ih

/-! ## The finished graphs -/

omit hprovenance in
/-- Two walks of tables that differ in one slot, in one order of names, differ in that slot. -/
theorem slotsExchanged_walk {wins : Prop} {slots slots' walk walk' : List Slot}
    (h : SlotsExchanged d d' wins slots slots') (hnodup : (slots.map Slot.name).Nodup)
    (hwalk : walk.Perm slots) (hwalk' : walk'.Perm slots')
    (horder : walk.map Slot.name = walk'.map Slot.name) : SlotsExchanged d d' wins walk walk' := by
  obtain ⟨s, s', hs, front, back, rfl, rfl⟩ := h
  obtain ⟨left, right, rfl⟩ := List.append_of_mem (hwalk.mem_iff.mpr (by simp : s ∈ front ++ s :: back))
  refine ⟨s, s', hs, left, right, rfl, ?_⟩
  have hsname : s.name = s'.name := (hs.name_eq hname).symm
  have hperm : (left ++ s' :: right).Perm walk' := by
    have hrest : (left ++ right).Perm (front ++ back) :=
      (List.perm_middle.symm.trans (hwalk.trans List.perm_middle)).cons_inv
    exact (List.perm_middle.trans ((hrest.cons s').trans List.perm_middle.symm)).trans hwalk'.symm
  have hnames : (left ++ s :: right).map Slot.name = (left ++ s' :: right).map Slot.name := by
    simp [hsname]
  have hnodup' : ((left ++ s' :: right).map Slot.name).Nodup := by
    rw [← hnames]
    exact (hwalk.map Slot.name).nodup_iff.mpr hnodup
  exact (eq_of_perm_of_map_eq Slot.name hperm hnodup' (hnames.symm.trans horder)).symm

omit hname in
/-- The graphs differ in one shadow, if `d` is not the first of its name. -/
theorem finishWith_exchanged (split : List (String × List String) → List (List String))
    {wins : Prop} {b b' : GraphBuilder} (h : SlotsExchanged d d' wins b.slots b'.slots)
    (hloses : ¬ wins) :
    (b'.finishWith split).1.nodes = (b.finishWith split).1.nodes ∧
      (b'.finishWith split).1.links = (b.finishWith split).1.links ∧
      (b'.finishWith split).1.dangling = (b.finishWith split).1.dangling ∧
      (b'.finishWith split).2 = (b.finishWith split).2 ∧
      ∃ winner, Replaced (⟨d, winner⟩ : ShadowedDefinition) ⟨d', winner⟩
        (b.finishWith split).1.shadowed (b'.finishWith split).1.shadowed := by
  obtain ⟨s, s', hs, hslots⟩ := h
  cases hs with
  | authoritative shadows hwins => exact absurd hwins hloses
  | shadow a edges hshadows =>
    have hsorted := hslots.mergeSort (fun t : Slot => t.authoritative.provenance) rfl
    have hpending : b'.pending = b.pending :=
      (hsorted.map_eq (fun t : Slot => (t.authoritative, t.edges)) rfl).symm
    refine ⟨?_, ?_, ?_, ?_, a.provenance, ?_⟩
    · unfold finishWith
      rw [hpending]
    · unfold finishWith
      rw [hpending]
    · unfold finishWith
      rw [hpending]
    · unfold finishWith
      rw [hpending]
    · have hlisted := hsorted.flatMap
        (fun t : Slot => t.shadows.map fun c => (⟨c, t.authoritative.provenance⟩ : ShadowedDefinition))
        (hshadows.map fun c => (⟨c, a.provenance⟩ : ShadowedDefinition))
      exact hlisted.mergeSort (fun t : ShadowedDefinition => t.definition.provenance) hprovenance.symm

end

end GraphBuilder

end ClassAtlas
