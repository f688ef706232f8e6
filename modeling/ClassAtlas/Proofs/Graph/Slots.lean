-- What the slots of a collection hold. Whatever the order of recording was, each name has
-- one slot, the slot has all definitions of the name, no other one arrives before the
-- authoritative one, and the edges are those of its record.
import Mathlib.Data.List.Nodup
import ClassAtlas.Graph.Builder

namespace ClassAtlas

/-! ## The order of arrival -/

namespace Provenance

/-- The place of the root and the place in the root. -/
def arrival (p : Provenance) : Nat × Nat := (p.rank, p.ordinal)

theorem precedes_iff {a b : Provenance} :
    a.precedes b = true ↔ a.rank < b.rank ∨ a.rank = b.rank ∧ a.ordinal < b.ordinal := by
  simp [precedes]

theorem not_precedes_self (a : Provenance) : a.precedes a = false := by
  rw [Bool.eq_false_iff, ne_eq, precedes_iff]
  omega

theorem precedes_trans {a b c : Provenance} (hab : a.precedes b) (hbc : b.precedes c) :
    a.precedes c := by
  rw [precedes_iff] at *
  omega

theorem precedes_asymm {a b : Provenance} (h : a.precedes b) : b.precedes a = false := by
  rw [Bool.eq_false_iff, ne_eq, precedes_iff]
  rw [precedes_iff] at h
  omega

/-- Two that do not come one before the other arrive at one place. -/
theorem arrival_eq {a b : Provenance} (hab : a.precedes b = false) (hba : b.precedes a = false) :
    a.arrival = b.arrival := by
  rw [Bool.eq_false_iff, ne_eq, precedes_iff] at *
  simp only [arrival, Prod.mk.injEq]
  omega

end Provenance

def Definition.arrival (d : Definition) : Nat × Nat := d.provenance.arrival

/-- A definition of a class with nothing but a superclass. -/
def Definition.plain (name : String) (superclass : Option String) (rank ordinal : Nat) :
    Definition where
  record := {
    name, superclass, access := ⟨0x0001⟩, minorVersion := 0, majorVersion := 52, interfaces := []
    fields := [], methods := [], annotations := [], signature := none, parsedSignature := none
    outerClass := none, innerClasses := [], referencedClasses := [] }
  provenance := {
    rank, ordinal, rootPath := "lib", entryName := name ++ ".class", location := "lib", module := none }

/-! ## One slot -/

namespace Slot

/-- All definitions in a slot. -/
def definitions (s : Slot) : List Definition := s.authoritative :: s.shadows

/-- The edges are those of the authoritative definition, the shadows have the name of the slot,
and none of them arrives before the authoritative one. -/
structure WellFormed (s : Slot) : Prop where
  edges : s.edges = s.authoritative.record.edges
  named : ∀ d ∈ s.shadows, d.name = s.name
  first : ∀ d ∈ s.shadows, d.provenance.precedes s.authoritative.provenance = false

theorem WellFormed.name_eq {s : Slot} (h : s.WellFormed) {d : Definition} (hd : d ∈ s.definitions) :
    d.name = s.name := by
  rcases List.mem_cons.mp hd with rfl | hd
  · rfl
  · exact h.named d hd

end Slot

namespace GraphBuilder

theorem name_extendSlot {s : Slot} {d : Definition} (hname : s.name = d.name) :
    (extendSlot s d).name = s.name := by
  unfold extendSlot
  split
  · exact hname.symm
  · rfl

theorem perm_definitions_extendSlot (s : Slot) (d : Definition) :
    (extendSlot s d).definitions.Perm (d :: s.definitions) := by
  unfold extendSlot
  split
  · exact (List.perm_append_singleton s.authoritative s.shadows).cons d
  · exact ((List.perm_append_singleton d s.shadows).cons _).trans (List.Perm.swap _ _ _)

theorem wellFormed_extendSlot {s : Slot} {d : Definition} (h : s.WellFormed) (hname : s.name = d.name) :
    (extendSlot s d).WellFormed := by
  unfold extendSlot
  split
  · rename_i hprecedes
    refine ⟨rfl, ?_, ?_⟩
    · intro c hc
      rcases List.mem_append.mp hc with hc | hc
      · exact (h.named c hc).trans hname
      · rw [List.mem_singleton.mp hc]
        exact hname
    · intro c hc
      rcases List.mem_append.mp hc with hc | hc
      · rw [Bool.eq_false_iff]
        intro hcd
        have hca := Provenance.precedes_trans hcd hprecedes
        rw [h.first c hc] at hca
        cases hca
      · rw [List.mem_singleton.mp hc]
        exact Provenance.precedes_asymm hprecedes
  · rename_i hprecedes
    refine ⟨h.edges, ?_, ?_⟩
    · intro c hc
      rcases List.mem_append.mp hc with hc | hc
      · exact h.named c hc
      · rw [List.mem_singleton.mp hc]
        exact hname.symm
    · intro c hc
      rcases List.mem_append.mp hc with hc | hc
      · exact h.first c hc
      · rw [List.mem_singleton.mp hc]
        exact Bool.eq_false_iff.mpr hprecedes

/-! ## All slots -/

/-- The slots hold these definitions, and no others. -/
structure Holds (slots : List Slot) (definitions : List Definition) : Prop where
  names : (slots.map Slot.name).Nodup
  wellFormed : ∀ s ∈ slots, s.WellFormed
  all : (slots.flatMap Slot.definitions).Perm definitions

theorem map_name_insert (d : Definition) (slots : List Slot) :
    (insert d slots).map Slot.name =
      if d.name ∈ slots.map Slot.name then slots.map Slot.name else slots.map Slot.name ++ [d.name] := by
  induction slots with
  | nil => rfl
  | cons s rest ih =>
    unfold insert
    by_cases hname : s.name = d.name
    · simp [hname, name_extendSlot]
    · have hne : d.name ≠ s.name := Ne.symm hname
      rw [if_neg hname, List.map_cons, ih, List.map_cons]
      split <;> simp_all

theorem wellFormed_insert {d : Definition} {slots : List Slot} (h : ∀ s ∈ slots, s.WellFormed) :
    ∀ s ∈ insert d slots, s.WellFormed := by
  induction slots with
  | nil =>
    intro s hs
    rw [List.mem_singleton.mp hs]
    exact ⟨rfl, by simp, by simp⟩
  | cons t rest ih =>
    obtain ⟨ht, hrest⟩ := List.forall_mem_cons.mp h
    unfold insert
    split
    · rename_i hname
      exact List.forall_mem_cons.mpr ⟨wellFormed_extendSlot ht hname, hrest⟩
    · exact List.forall_mem_cons.mpr ⟨ht, ih hrest⟩

theorem perm_definitions_insert (d : Definition) (slots : List Slot) :
    ((insert d slots).flatMap Slot.definitions).Perm (d :: slots.flatMap Slot.definitions) := by
  induction slots with
  | nil => exact List.Perm.refl _
  | cons s rest ih =>
    unfold insert
    split
    · exact (perm_definitions_extendSlot s d).append_right _
    · exact (ih.append_left s.definitions).trans List.perm_middle

/-- Recording one more definition keeps the slots in order. -/
theorem Holds.insert {slots : List Slot} {definitions : List Definition} (h : Holds slots definitions)
    (d : Definition) : Holds (GraphBuilder.insert d slots) (d :: definitions) where
  names := by
    rw [map_name_insert]
    split
    · exact h.names
    · rename_i hname
      exact List.nodup_append.mpr ⟨h.names, List.nodup_singleton _, by
        intro a ha b hb
        rw [List.mem_singleton.mp hb]
        rintro rfl
        exact hname ha⟩
  wellFormed := wellFormed_insert h.wellFormed
  all := (perm_definitions_insert d slots).trans (h.all.cons d)

theorem Holds.perm {slots slots' : List Slot} {definitions definitions' : List Definition}
    (h : Holds slots definitions) (hslots : slots.Perm slots')
    (hdefinitions : definitions.Perm definitions') : Holds slots' definitions' where
  names := (hslots.map Slot.name).nodup h.names
  wellFormed := fun s hs => h.wellFormed s (hslots.mem_iff.mpr hs)
  all := ((hslots.flatMap_right Slot.definitions).symm.trans h.all).trans hdefinitions

theorem holds_recordAll {b : GraphBuilder} {definitions : List Definition}
    (h : Holds b.slots definitions) (more : List Definition) :
    Holds (b.recordAll more).slots (definitions ++ more) := by
  induction more generalizing b definitions with
  | nil => simpa [recordAll] using h
  | cons d more ih =>
    have hnext : Holds (b.record d).slots (d :: definitions) := h.insert d
    exact (ih hnext).perm (List.Perm.refl _) List.perm_middle.symm

/-- The slots of a run of recordings hold what was recorded. -/
theorem holds_run (definitions : List Definition) :
    Holds (empty.recordAll definitions).slots definitions := by
  have hempty : Holds empty.slots [] := ⟨List.nodup_nil, by simp [empty], List.Perm.refl _⟩
  exact holds_recordAll hempty definitions

/-! ## Which definitions count -/

/-- No definition of the same name arrives before this one. -/
structure Authoritative (definitions : List Definition) (d : Definition) : Prop where
  mem : d ∈ definitions
  first : ∀ c ∈ definitions, c.name = d.name → c.provenance.precedes d.provenance = false

theorem Authoritative.unique {definitions : List Definition} {a b : Definition}
    (hdistinct : (definitions.map Definition.arrival).Nodup) (ha : Authoritative definitions a)
    (hb : Authoritative definitions b) (hname : a.name = b.name) : a = b := by
  have harrival := Provenance.arrival_eq (hb.first a ha.mem hname) (ha.first b hb.mem hname.symm)
  exact List.inj_on_of_nodup_map hdistinct ha.mem hb.mem harrival

section

variable {slots : List Slot} {definitions : List Definition} (h : Holds slots definitions)

include h

theorem Holds.mem_iff {d : Definition} : d ∈ definitions ↔ ∃ s ∈ slots, d ∈ s.definitions := by
  rw [← h.all.mem_iff, List.mem_flatMap]

theorem Holds.slot_eq {s t : Slot} (hs : s ∈ slots) (ht : t ∈ slots) (hname : s.name = t.name) :
    s = t := List.inj_on_of_nodup_map h.names hs ht hname

/-- A definition of the name of a slot is in that slot. -/
theorem Holds.mem_slot {s : Slot} (hs : s ∈ slots) {d : Definition} (hd : d ∈ definitions)
    (hname : d.name = s.name) : d ∈ s.definitions := by
  obtain ⟨t, ht, hdt⟩ := h.mem_iff.mp hd
  have hst : s = t := h.slot_eq hs ht (hname.symm.trans ((h.wellFormed t ht).name_eq hdt))
  rwa [hst]

theorem Holds.authoritative {s : Slot} (hs : s ∈ slots) :
    Authoritative definitions s.authoritative where
  mem := h.mem_iff.mpr ⟨s, hs, List.mem_cons_self⟩
  first := by
    intro c hc hname
    rcases List.mem_cons.mp (h.mem_slot hs hc hname) with rfl | hshadow
    · exact Provenance.not_precedes_self _
    · exact (h.wellFormed s hs).first c hshadow

/-- When all definitions arrive at different places, those that count are known without the
slots. -/
theorem Holds.mem_authoritative (hdistinct : (definitions.map Definition.arrival).Nodup)
    {d : Definition} : d ∈ slots.map Slot.authoritative ↔ Authoritative definitions d := by
  rw [List.mem_map]
  constructor
  · rintro ⟨s, hs, rfl⟩
    exact h.authoritative hs
  · intro hd
    obtain ⟨s, hs, hds⟩ := h.mem_iff.mp hd.mem
    refine ⟨s, hs, ?_⟩
    rcases List.mem_cons.mp hds with rfl | hshadow
    · rfl
    · have hcount := h.authoritative hs
      have hlater := hd.first _ hcount.mem ((h.wellFormed s hs).named d hshadow).symm
      have harrival := Provenance.arrival_eq hlater ((h.wellFormed s hs).first d hshadow)
      exact List.inj_on_of_nodup_map hdistinct hcount.mem hd.mem harrival

theorem Holds.nodup_definitions (hdistinct : (definitions.map Definition.arrival).Nodup) :
    (slots.flatMap Slot.definitions).Nodup :=
  h.all.nodup_iff.mpr (List.Nodup.of_map _ hdistinct)

/-- The same of the definitions that do not count, and of what they are shadowed by. -/
theorem Holds.mem_shadows (hdistinct : (definitions.map Definition.arrival).Nodup)
    {a d : Definition} : (∃ s ∈ slots, s.authoritative = a ∧ d ∈ s.shadows) ↔
      Authoritative definitions a ∧ d ∈ definitions ∧ d.name = a.name ∧ d ≠ a := by
  constructor
  · rintro ⟨s, hs, rfl, hd⟩
    have hslot : s.definitions.Nodup :=
      (List.nodup_flatMap.mp (h.nodup_definitions hdistinct)).1 s hs
    refine ⟨h.authoritative hs, h.mem_iff.mpr ⟨s, hs, List.mem_cons_of_mem _ hd⟩,
      (h.wellFormed s hs).named d hd, ?_⟩
    rintro rfl
    exact (List.nodup_cons.mp hslot).1 hd
  · rintro ⟨ha, hd, hname, hne⟩
    obtain ⟨s, hs, rfl⟩ := List.mem_map.mp ((h.mem_authoritative hdistinct).mpr ha)
    refine ⟨s, hs, rfl, ?_⟩
    exact (List.mem_cons.mp (h.mem_slot hs hd hname)).resolve_left hne

end

end GraphBuilder

end ClassAtlas
