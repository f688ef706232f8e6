-- The laws of the search: it finds what the starts lead to and nothing else, as long as it
-- may take a step for each start and for each element that there is.
import Mathlib.Logic.Relation
import Mathlib.Data.List.Nodup
import Mathlib.Data.List.Perm.Subperm
import ClassAtlas.Graph.Search

namespace ClassAtlas.Search

variable {α : Type} [DecidableEq α]

/-- One step of a search. -/
def Leads (next : α → List α) (x y : α) : Prop := y ∈ next x

/-! ## What is fresh -/

theorem mem_fresh {seen found : List α} {y : α} : y ∈ fresh seen found ↔ y ∈ found ∧ y ∉ seen := by
  induction found generalizing seen with
  | nil => simp [fresh]
  | cons x rest ih =>
    unfold fresh
    by_cases hx : x ∈ seen
    · rw [if_pos hx, ih, List.mem_cons]
      constructor
      · rintro ⟨hy, hseen⟩
        exact ⟨Or.inr hy, hseen⟩
      · rintro ⟨rfl | hy, hseen⟩
        · exact absurd hx hseen
        · exact ⟨hy, hseen⟩
    · rw [if_neg hx, List.mem_cons, ih, List.mem_cons]
      constructor
      · rintro (rfl | ⟨hy, hseen⟩)
        · exact ⟨Or.inl rfl, hx⟩
        · exact ⟨Or.inr hy, fun h => hseen (List.mem_append_left _ h)⟩
      · rintro ⟨rfl | hy, hseen⟩
        · exact Or.inl rfl
        · by_cases heq : y = x
          · exact Or.inl heq
          · exact Or.inr ⟨hy, by simp [hseen, heq]⟩

theorem nodup_fresh (seen found : List α) : (fresh seen found).Nodup := by
  induction found generalizing seen with
  | nil => exact List.nodup_nil
  | cons x rest ih =>
    unfold fresh
    split
    · exact ih seen
    · refine List.nodup_cons.mpr ⟨?_, ih _⟩
      intro hx
      exact (mem_fresh.mp hx).2 (by simp)

/-! ## Runs of the search -/

/-- The elements that are still to be found. -/
def unseen (all seen : List α) : List α := all.filter fun x => x ∉ seen

theorem length_unseen_fresh {all seen found : List α} (h : found ⊆ all) :
    (unseen all (seen ++ fresh seen found)).length + (fresh seen found).length ≤
      (unseen all seen).length := by
  have hsplit : unseen all (seen ++ fresh seen found) =
      (unseen all seen).filter fun x => x ∉ fresh seen found := by
    unfold unseen
    rw [List.filter_filter]
    congr 1
    funext x
    by_cases hx : x ∈ seen <;> simp [hx]
  have hsub : fresh seen found ⊆ (unseen all seen).filter fun x => x ∈ fresh seen found := by
    intro x hx
    obtain ⟨hfound, hseen⟩ := mem_fresh.mp hx
    simp [unseen, h hfound, hseen, hx]
  have hle := ((nodup_fresh seen found).subperm hsub).length_le
  have hlength : (unseen all seen).length =
      ((unseen all seen).filter fun x => x ∈ fresh seen found).length +
        ((unseen all seen).filter fun x => x ∉ fresh seen found).length := by
    simpa using List.length_eq_length_filter_add fun x => decide (x ∈ fresh seen found)
  rw [hsplit]
  omega

variable {next : α → List α}

/-- A turn takes one element from the queue, and each that it puts there was unseen. -/
theorem length_turn {all : List α} {x : α} (h : next x ⊆ all) (queue seen : List α) :
    (queue ++ fresh seen (next x)).length + (unseen all (seen ++ fresh seen (next x))).length ≤
      queue.length + (unseen all seen).length := by
  have hcount : (unseen all (seen ++ fresh seen (next x))).length + (fresh seen (next x)).length ≤
      (unseen all seen).length := length_unseen_fresh h
  rw [List.length_append]
  omega

/-- What is found comes behind what was seen, and is new. -/
theorem visit_eq_append (next : α → List α) (fuel : Nat) (queue seen : List α) :
    ∃ found, visit next fuel queue seen = seen ++ found ∧ ∀ y ∈ found, y ∉ seen := by
  induction fuel generalizing queue seen with
  | zero => exact ⟨[], by simp [visit], by simp⟩
  | succ fuel ih =>
    cases queue with
    | nil => exact ⟨[], by simp [visit], by simp⟩
    | cons x queue =>
      obtain ⟨found, heq, hnew⟩ := ih (queue ++ fresh seen (next x)) (seen ++ fresh seen (next x))
      refine ⟨fresh seen (next x) ++ found, ?_, ?_⟩
      · rw [visit, heq, List.append_assoc]
      · intro y hy
        rcases List.mem_append.mp hy with hy | hy
        · exact (mem_fresh.mp hy).2
        · exact fun hseen => hnew y hy (List.mem_append_left _ hseen)

theorem subset_visit (fuel : Nat) (queue seen : List α) : seen ⊆ visit next fuel queue seen := by
  obtain ⟨found, heq, _⟩ := visit_eq_append next fuel queue seen
  rw [heq]
  exact List.subset_append_left _ _

/-- Nothing is found but what the queue leads to. -/
theorem leads_of_mem_visit {fuel : Nat} {queue seen : List α} {y : α}
    (h : y ∈ visit next fuel queue seen) :
    y ∈ seen ∨ ∃ x ∈ queue, Relation.TransGen (Leads next) x y := by
  induction fuel generalizing queue seen with
  | zero => exact Or.inl h
  | succ fuel ih =>
    cases queue with
    | nil => exact Or.inl h
    | cons x queue =>
      have hstep : ∀ z ∈ fresh seen (next x), Leads next x z := fun z hz => (mem_fresh.mp hz).1
      rw [visit] at h
      rcases ih h with hseen | ⟨z, hz, hzy⟩
      · rcases List.mem_append.mp hseen with hseen | hfound
        · exact Or.inl hseen
        · exact Or.inr ⟨x, by simp, .single (hstep y hfound)⟩
      · rcases List.mem_append.mp hz with hz | hz
        · exact Or.inr ⟨z, by simp [hz], hzy⟩
        · exact Or.inr ⟨x, by simp, .head (hstep z hz) hzy⟩

/-- With a step for each element of the queue and each that is unseen, the search ends with
nothing left out. -/
theorem visit_closed {all : List α} (hall : ∀ x, next x ⊆ all) {fuel : Nat}
    {queue seen : List α} (hfuel : queue.length + (unseen all seen).length ≤ fuel) :
    (∀ x ∈ queue, next x ⊆ visit next fuel queue seen) ∧
      ∀ x ∈ visit next fuel queue seen, x ∉ seen → next x ⊆ visit next fuel queue seen := by
  induction fuel generalizing queue seen with
  | zero =>
    have hqueue : queue = [] := List.length_eq_zero_iff.mp (by omega)
    subst hqueue
    exact ⟨by simp, fun x hx hseen => absurd hx hseen⟩
  | succ fuel ih =>
    cases queue with
    | nil => exact ⟨by simp, fun x hx hseen => absurd hx hseen⟩
    | cons x queue =>
      have hfuel' : (queue ++ fresh seen (next x)).length +
          (unseen all (seen ++ fresh seen (next x))).length ≤ fuel := by
        have hturn := length_turn (hall x) queue seen
        rw [List.length_cons] at hfuel
        omega
      obtain ⟨hqueue, hfound⟩ := ih hfuel'
      rw [visit]
      refine ⟨?_, ?_⟩
      · intro z hz
        rcases List.mem_cons.mp hz with rfl | hz
        · intro y hy
          apply subset_visit
          by_cases hseen : y ∈ seen
          · exact List.mem_append_left _ hseen
          · exact List.mem_append_right _ (mem_fresh.mpr ⟨hy, hseen⟩)
        · exact hqueue z (List.mem_append_left _ hz)
      · intro z hz hseen
        by_cases hfresh : z ∈ fresh seen (next x)
        · exact hqueue z (List.mem_append_right _ hfresh)
        · exact hfound z hz (by simp [hseen, hfresh])

/-! ## The answer -/

/-- The search tells what the starts lead to in one or more steps, apart from what is known.
Whatever is known must be among the starts. -/
theorem mem_reached {all starts known : List α} {size : Nat} (hall : ∀ x, next x ⊆ all)
    (hsize : all.length = size) (hknown : known ⊆ starts) {y : α} :
    y ∈ reached next size starts known ↔
      y ∉ known ∧ ∃ x ∈ starts, Relation.TransGen (Leads next) x y := by
  have hfuel : starts.length + (unseen all known).length ≤ starts.length + size :=
    Nat.add_le_add_left (hsize ▸ List.length_filter_le _ _) _
  obtain ⟨found, heq, hnew⟩ := visit_eq_append next (starts.length + size) starts known
  obtain ⟨hstarts, hclosed⟩ := visit_closed hall hfuel
  have hreached : reached next size starts known = found := by
    rw [reached, heq, List.drop_left]
  rw [hreached]
  constructor
  · intro hy
    have hvisit : y ∈ visit next (starts.length + size) starts known := by
      rw [heq]
      exact List.mem_append_right _ hy
    rcases leads_of_mem_visit hvisit with hseen | hleads
    · exact absurd hseen (hnew y hy)
    · exact ⟨hnew y hy, hleads⟩
  · rintro ⟨hy, x, hx, hxy⟩
    have hnext : ∀ z ∈ visit next (starts.length + size) starts known,
        next z ⊆ visit next (starts.length + size) starts known := by
      intro z hz
      by_cases hseen : z ∈ known
      · exact hstarts z (hknown hseen)
      · exact hclosed z hz hseen
    have hmem : y ∈ visit next (starts.length + size) starts known := by
      clear hy
      induction hxy with
      | single hstep => exact hstarts x hx hstep
      | tail _ hstep ih => exact hnext _ ih hstep
    rw [heq] at hmem
    exact (List.mem_append.mp hmem).resolve_left hy

end ClassAtlas.Search
