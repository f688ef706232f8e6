-- The finished graph does not depend on the order in which definitions are recorded. The
-- slots may differ in their order and in the order of their shadows; sorting by arrival
-- forgets both, and everything else is made of the sorted lists.
import ClassAtlas.Graph.Freeze
import ClassAtlas.Proofs.Graph.Slots

namespace ClassAtlas.GraphBuilder

/-! ## Sorting by arrival -/

theorem arrivesInOrder_trans (a b c : Provenance) (hab : arrivesInOrder a b)
    (hbc : arrivesInOrder b c) : arrivesInOrder a c := by
  simp only [arrivesInOrder, Bool.not_eq_true', Bool.eq_false_iff, ne_eq, Provenance.precedes_iff] at *
  omega

theorem arrivesInOrder_total (a b : Provenance) :
    (arrivesInOrder a b || arrivesInOrder b a) = true := by
  cases hba : b.precedes a with
  | false => simp [arrivesInOrder, hba]
  | true => simp [arrivesInOrder, Provenance.precedes_asymm hba]

theorem arrival_eq_of_arrivesInOrder {a b : Provenance} (hab : arrivesInOrder a b)
    (hba : arrivesInOrder b a) : a.arrival = b.arrival := by
  simp only [arrivesInOrder, Bool.not_eq_true'] at hab hba
  exact Provenance.arrival_eq hba hab

/-- Of what arrives at different places there is one list in the order of arrival. -/
theorem eq_of_perm_of_arrivesInOrder {α : Type} {items items' : List α} (provenance : α → Provenance)
    (hperm : items.Perm items')
    (hdistinct : ∀ a ∈ items, ∀ b ∈ items,
      (provenance a).arrival = (provenance b).arrival → a = b)
    (hordered : items.Pairwise fun a b => arrivesInOrder (provenance a) (provenance b))
    (hordered' : items'.Pairwise fun a b => arrivesInOrder (provenance a) (provenance b)) :
    items = items' := by
  refine List.Perm.eq_of_pairwise ?_ hordered hordered' hperm
  intro a b ha hb hab hba
  exact hdistinct a ha b (hperm.mem_iff.mpr hb) (arrival_eq_of_arrivesInOrder hab hba)

/-- Sorting forgets the order of what arrives at different places. -/
theorem mergeSort_eq_of_perm {α : Type} {items items' : List α} (provenance : α → Provenance)
    (hperm : items.Perm items')
    (hdistinct : ∀ a ∈ items, ∀ b ∈ items,
      (provenance a).arrival = (provenance b).arrival → a = b) :
    items.mergeSort (fun a b => arrivesInOrder (provenance a) (provenance b)) =
      items'.mergeSort fun a b => arrivesInOrder (provenance a) (provenance b) := by
  have hsorted : ∀ l : List α, (l.mergeSort fun a b =>
      arrivesInOrder (provenance a) (provenance b)).Pairwise fun a b =>
        arrivesInOrder (provenance a) (provenance b) :=
    List.pairwise_mergeSort (fun a b c => arrivesInOrder_trans _ _ _)
      fun a b => arrivesInOrder_total _ _
  apply eq_of_perm_of_arrivesInOrder provenance _ _ (hsorted items) (hsorted items')
  · exact (List.mergeSort_perm _ _).trans (hperm.trans (List.mergeSort_perm _ _).symm)
  · intro a ha b hb
    exact hdistinct a (List.mem_mergeSort.mp ha) b (List.mem_mergeSort.mp hb)

/-! ## What is sorted -/

/-- The authoritative definitions in the order of their arrival. -/
def classes (b : GraphBuilder) : List Definition := b.pending.map Prod.fst

/-- Sorting the slots sorts their authoritative definitions. -/
theorem classes_eq_mergeSort (b : GraphBuilder) : b.classes =
    (b.slots.map Slot.authoritative).mergeSort fun c d => arrivesInOrder c.provenance d.provenance := by
  unfold classes pending sortedSlots
  rw [List.map_map]
  exact List.map_mergeSort fun _ _ _ _ => rfl

section

variable {b b' : GraphBuilder} {definitions : List Definition}

/-- What was derived when a class was recorded are the edges of its record. -/
theorem pending_eq (h : Holds b.slots definitions) :
    b.pending = b.classes.map fun d => (d, d.record.edges) := by
  unfold classes pending
  rw [List.map_map, List.map_map]
  refine List.map_congr_left fun s hs => ?_
  have hedges := (h.wellFormed s (List.mem_mergeSort.mp hs)).edges
  exact congrArg (s.authoritative, ·) hedges

theorem nodup_authoritative {slots : List Slot} (h : Holds slots definitions) :
    (slots.map Slot.authoritative).Nodup := by
  have hnames : ((slots.map Slot.authoritative).map Definition.name).Nodup := by
    rw [List.map_map]
    exact h.names
  exact List.Nodup.of_map _ hnames

/-- The shadowed definitions before they are sorted. -/
def shadowList (slots : List Slot) : List ShadowedDefinition :=
  slots.flatMap fun s => s.shadows.map fun d => ⟨d, s.authoritative.provenance⟩

theorem mem_shadowList {slots : List Slot} {d : ShadowedDefinition} :
    d ∈ shadowList slots ↔
      ∃ a, (∃ s ∈ slots, s.authoritative = a ∧ d.definition ∈ s.shadows) ∧
        d.authoritative = a.provenance := by
  unfold shadowList
  rw [List.mem_flatMap]
  constructor
  · rintro ⟨s, hs, hd⟩
    obtain ⟨c, hc, rfl⟩ := List.mem_map.mp hd
    exact ⟨s.authoritative, ⟨s, hs, rfl, hc⟩, rfl⟩
  · rintro ⟨_, ⟨s, hs, rfl, hd⟩, hauthoritative⟩
    refine ⟨s, hs, List.mem_map.mpr ⟨d.definition, hd, ?_⟩⟩
    rw [← hauthoritative]

theorem shadowed_eq_mergeSort (b : GraphBuilder) : ∃ slots, slots.Perm b.slots ∧
    b.shadowed = (shadowList slots).mergeSort fun s t =>
      arrivesInOrder s.definition.provenance t.definition.provenance :=
  ⟨_, List.mergeSort_perm _ _, rfl⟩

theorem sublist_flatMap_shadows (slots : List Slot) :
    (slots.flatMap Slot.shadows).Sublist (slots.flatMap Slot.definitions) := by
  induction slots with
  | nil => exact List.Sublist.refl _
  | cons s rest ih => exact (List.sublist_cons_self s.authoritative s.shadows).append ih

variable (h : Holds b.slots definitions) (hdistinct : (definitions.map Definition.arrival).Nodup)

include h hdistinct

theorem nodup_shadowList : (shadowList b.slots).Nodup := by
  have hdefinitions : (shadowList b.slots).map ShadowedDefinition.definition =
      b.slots.flatMap Slot.shadows := by
    simp [shadowList, List.map_flatMap, Function.comp_def]
  have hnodup := (h.nodup_definitions hdistinct).sublist (sublist_flatMap_shadows b.slots)
  rw [← hdefinitions] at hnodup
  exact List.Nodup.of_map _ hnodup

variable (h' : Holds b'.slots definitions)

include h'

theorem classes_eq : b.classes = b'.classes := by
  have hperm : (b.slots.map Slot.authoritative).Perm (b'.slots.map Slot.authoritative) := by
    refine (List.perm_ext_iff_of_nodup (nodup_authoritative h) (nodup_authoritative h')).mpr ?_
    intro d
    rw [h.mem_authoritative hdistinct, h'.mem_authoritative hdistinct]
  rw [classes_eq_mergeSort, classes_eq_mergeSort]
  refine mergeSort_eq_of_perm Definition.provenance hperm ?_
  intro c hc d hd heq
  have hc' := ((h.mem_authoritative hdistinct).mp hc).mem
  have hd' := ((h.mem_authoritative hdistinct).mp hd).mem
  exact List.inj_on_of_nodup_map hdistinct hc' hd' heq

theorem shadowed_eq : b.shadowed = b'.shadowed := by
  obtain ⟨slots, hslots, hsorted⟩ := shadowed_eq_mergeSort b
  obtain ⟨slots', hslots', hsorted'⟩ := shadowed_eq_mergeSort b'
  have hperm : (shadowList b.slots).Perm (shadowList b'.slots) := by
    refine (List.perm_ext_iff_of_nodup (nodup_shadowList h hdistinct)
      (nodup_shadowList h' hdistinct)).mpr ?_
    intro d
    simp only [mem_shadowList, h.mem_shadows hdistinct, h'.mem_shadows hdistinct]
  rw [hsorted, hsorted']
  refine mergeSort_eq_of_perm (fun s => s.definition.provenance)
    (((hslots.flatMap_right _).trans hperm).trans (hslots'.flatMap_right _).symm) ?_
  intro c hc d hd heq
  obtain ⟨a, hca, hc⟩ := mem_shadowList.mp ((hslots.flatMap_right _).mem_iff.mp hc)
  obtain ⟨a', hda, hd⟩ := mem_shadowList.mp ((hslots.flatMap_right _).mem_iff.mp hd)
  obtain ⟨ha, hmem, hname, _⟩ := (h.mem_shadows hdistinct).mp hca
  obtain ⟨ha', hmem', hname', _⟩ := (h.mem_shadows hdistinct).mp hda
  have hdefinition : c.definition = d.definition :=
    List.inj_on_of_nodup_map hdistinct hmem hmem' heq
  have hauthoritative : a = a' :=
    ha.unique hdistinct ha' (hname.symm.trans (hdefinition ▸ hname'))
  cases c
  cases d
  simp_all

theorem finishWith_eq (split : List (String × List String) → List (List String)) :
    b.finishWith split = b'.finishWith split := by
  have hpending : b.pending = b'.pending := by
    rw [pending_eq h, pending_eq h', classes_eq h hdistinct h']
  unfold finishWith
  rw [hpending, shadowed_eq h hdistinct h']

end

/-! ## The order of recording -/

/-- Whatever the order in which definitions are recorded, and whatever the order in which the
table of names is walked at the end, the graph and the faults are the same. -/
theorem the_graph_forgets_the_order_of_recording
    (split : List (String × List String) → List (List String)) {definitions definitions' : List Definition}
    (hperm : definitions.Perm definitions') (hdistinct : (definitions.map Definition.arrival).Nodup)
    {b b' : GraphBuilder} (hwalk : b.slots.Perm (empty.recordAll definitions).slots)
    (hwalk' : b'.slots.Perm (empty.recordAll definitions').slots) :
    b.finishWith split = b'.finishWith split := by
  have h : Holds b.slots definitions :=
    (holds_run definitions).perm hwalk.symm (List.Perm.refl _)
  have h' : Holds b'.slots definitions :=
    (holds_run definitions').perm hwalk'.symm hperm.symm
  exact finishWith_eq h hdistinct h' split

/-- Two definitions of one class and one of another, there and back. -/
theorem the_graph_forgets_that_the_last_came_first :
    let definitions := [Definition.plain "a.B" none 1 0, .plain "a.C" (some "a.B") 1 1,
      .plain "a.B" none 0 4]
    definitions.Perm definitions.reverse ∧ (definitions.map Definition.arrival).Nodup ∧
      (empty.recordAll definitions).finish = (empty.recordAll definitions.reverse).finish := by
  intro definitions
  have hperm : definitions.Perm definitions.reverse := (List.reverse_perm definitions).symm
  have hdistinct : (definitions.map Definition.arrival).Nodup := by decide
  exact ⟨hperm, hdistinct, the_graph_forgets_the_order_of_recording Hierarchy.components hperm
    hdistinct (List.Perm.refl _) (List.Perm.refl _)⟩

end ClassAtlas.GraphBuilder
