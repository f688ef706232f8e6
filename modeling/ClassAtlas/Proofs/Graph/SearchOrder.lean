-- The laws of the loop behind a search. Each turn takes the first element of the queue; the loop
-- ends by itself, tells nothing twice, and tells what is nearer to its start before what is
-- farther. Where each element leads to one other at most, it walks down a line.
import Mathlib.Data.List.Forall2
import Mathlib.Order.Lattice.Nat
import ClassAtlas.Proofs.Graph.Search

namespace ClassAtlas.Search

open Relation (TransGen)

/-! ## Ways and distances -/

/-- A way of `k` steps leads from `a` to `b`. -/
inductive Walk {α : Type} (R : α → α → Prop) (a : α) : Nat → α → Prop
  | here : Walk R a 0 a
  | step {k : Nat} {b c : α} : Walk R a k b → R b c → Walk R a (k + 1) c

/-- The shortest way from `a` to `b` has `k` steps. -/
def Distance {α : Type} (R : α → α → Prop) (a b : α) (k : Nat) : Prop :=
  IsLeast {j | Walk R a j b} k

/-- Some way of no more than `k` steps leads from `a` to `b`. -/
def Within {α : Type} (R : α → α → Prop) (a : α) (k : Nat) (b : α) : Prop := ∃ j ≤ k, Walk R a j b

/-- From `a` it is no farther to `b` than to `c`. -/
def NoFarther {α : Type} (R : α → α → Prop) (a b c : α) : Prop :=
  ∀ k, Within R a k c → Within R a k b

section

variable {α : Type} {R : α → α → Prop} {a b c : α} {j k : Nat}

theorem Within.mono (h : Within R a j b) (hjk : j ≤ k) : Within R a k b := by
  obtain ⟨i, hi, hwalk⟩ := h
  exact ⟨i, Nat.le_trans hi hjk, hwalk⟩

theorem Within.step (h : Within R a k b) (hbc : R b c) : Within R a (k + 1) c := by
  obtain ⟨i, hi, hwalk⟩ := h
  exact ⟨i + 1, Nat.succ_le_succ hi, hwalk.step hbc⟩

theorem exists_walk (h : TransGen R a b) : ∃ k, Walk R a k b := by
  induction h with
  | single hab => exact ⟨1, Walk.here.step hab⟩
  | tail _ hbc ih =>
    obtain ⟨k, hwalk⟩ := ih
    exact ⟨k + 1, hwalk.step hbc⟩

theorem NoFarther.le (h : NoFarther R a b c) (hb : Distance R a b j) (hc : Distance R a c k) :
    j ≤ k := by
  obtain ⟨i, hi, hwalk⟩ := h k ⟨k, Nat.le_refl k, hc.1⟩
  exact Nat.le_trans (hb.2 hwalk) hi

/-- Elements that come no nearer one after the other have distances that do not fall. -/
theorem exists_distances {l : List α} (hwalk : ∀ y ∈ l, ∃ k, Walk R a k y)
    (hordered : l.Pairwise (NoFarther R a)) :
    ∃ lengths : List Nat, List.Forall₂ (Distance R a) l lengths ∧ lengths.Pairwise (· ≤ ·) := by
  have hdistance : ∀ y ∈ l, Distance R a y (sInf {k | Walk R a k y}) := fun y hy =>
    ⟨Nat.sInf_mem (hwalk y hy), fun k hk => Nat.sInf_le hk⟩
  refine ⟨l.map fun y => sInf {k | Walk R a k y}, ?_, ?_⟩
  · rw [List.forall₂_map_right_iff, List.forall₂_same]
    exact hdistance
  · rw [List.pairwise_map]
    refine hordered.imp_of_mem ?_
    intro y z hy hz hyz
    exact hyz.le (hdistance y hy) (hdistance z hz)

end

/-! ## The loop -/

section

variable {α : Type} [DecidableEq α] {next : α → List α}

/-- The loop of a search, told without a limit: from a queue and from what was seen it ends with
`result`. -/
inductive Ends (next : α → List α) : List α → List α → List α → Prop
  | empty (seen : List α) : Ends next [] seen seen
  | turn {x : α} {queue seen result : List α} :
      Ends next (queue ++ fresh seen (next x)) (seen ++ fresh seen (next x)) result →
        Ends next (x :: queue) seen result

/-- With a step for each element of the queue and each that is unseen, the search comes to the
end of the loop. -/
theorem ends_visit {all : List α} (hall : ∀ x, next x ⊆ all) {fuel : Nat} {queue seen : List α}
    (hfuel : queue.length + (unseen all seen).length ≤ fuel) :
    Ends next queue seen (visit next fuel queue seen) := by
  induction fuel generalizing queue seen with
  | zero =>
    have hqueue : queue = [] := List.length_eq_zero_iff.mp (by omega)
    subst hqueue
    exact .empty seen
  | succ fuel ih =>
    cases queue with
    | nil => exact .empty seen
    | cons x queue =>
      apply Ends.turn
      apply ih
      have hturn := length_turn (hall x) queue seen
      rw [List.length_cons] at hfuel
      omega

theorem Ends.nodup {queue seen result : List α} (h : Ends next queue seen result)
    (hseen : seen.Nodup) : result.Nodup := by
  induction h with
  | empty => exact hseen
  | turn _ ih =>
    apply ih
    rw [List.nodup_append]
    refine ⟨hseen, nodup_fresh _ _, ?_⟩
    rintro y hy z hz rfl
    exact (mem_fresh.mp hz).2 hy

variable {all : List α} {size : Nat} (hall : ∀ x, next x ⊆ all) (hsize : all.length = size)

include hall hsize

theorem ends_reached (starts known : List α) :
    Ends next starts known (known ++ reached next size starts known) := by
  have hfuel : starts.length + (unseen all known).length ≤ starts.length + size :=
    Nat.add_le_add_left (hsize ▸ List.length_filter_le _ _) _
  obtain ⟨found, heq, _⟩ := visit_eq_append next (starts.length + size) starts known
  have hends := ends_visit hall hfuel
  rw [reached, heq, List.drop_left]
  rwa [heq] at hends

theorem nodup_reached (starts : List α) {known : List α} (hknown : known.Nodup) :
    (reached next size starts known).Nodup :=
  (List.nodup_append.mp ((ends_reached hall hsize starts known).nodup hknown)).2.1

theorem reached_subset {starts known : List α} (hknown : known ⊆ starts) :
    reached next size starts known ⊆ all := by
  intro y hy
  obtain ⟨_, x, _, hxy⟩ := (mem_reached hall hsize hknown).mp hy
  obtain ⟨z, _, hzy⟩ := TransGen.tail'_iff.mp hxy
  exact hall z hzy

end

/-! ## The order of the search -/

section

variable {α : Type} {next : α → List α}

/-- What holds between two turns of a search that began at `start`: the elements of `done` had
their turn, those of `queue` wait for it. All of them stand in the order of their distances, and
no two that wait are more than one step apart. -/
structure Layered (next : α → List α) (start : α) (done queue : List α) : Prop where
  start_mem : start ∈ done ++ queue
  closed : ∀ x ∈ done, next x ⊆ done ++ queue
  ordered : (done ++ queue).Pairwise (NoFarther (Leads next) start)
  narrow : ∀ x rest, queue = x :: rest → ∀ y ∈ rest, ∀ k,
    Within (Leads next) start k x → Within (Leads next) start (k + 1) y

theorem layered_start (next : α → List α) (start : α) : Layered next start [] [start] where
  start_mem := by simp
  closed := by simp
  ordered := by simp
  narrow := by
    intro x rest heq y hy
    obtain ⟨_, rfl⟩ := List.cons.inj heq
    cases hy

section

variable {start x y : α} {done queue : List α} (h : Layered next start done (x :: queue))

include h

theorem Layered.noFarther_queue (hy : y ∈ queue) : NoFarther (Leads next) start x y := by
  obtain ⟨_, hqueue, _⟩ := List.pairwise_append.mp h.ordered
  exact (List.pairwise_cons.mp hqueue).1 y hy

/-- A way to what was not seen leaves what was seen at an element of the queue, and the first
element of the queue is no farther than that. -/
theorem Layered.walk_to_unseen {i : Nat} (hwalk : Walk (Leads next) start i y)
    (hy : y ∉ done ++ x :: queue) : ∃ j, i = j + 1 ∧ Within (Leads next) start j x := by
  induction hwalk with
  | here => exact absurd h.start_mem hy
  | @step k b c hwalk hbc ih =>
    refine ⟨k, rfl, ?_⟩
    by_cases hb : b ∈ done ++ x :: queue
    · have hwithin : Within (Leads next) start k b := ⟨k, Nat.le_refl k, hwalk⟩
      rcases List.mem_append.mp hb with hdone | hqueue
      · exact absurd (h.closed b hdone hbc) hy
      · rcases List.mem_cons.mp hqueue with rfl | hqueue
        · exact hwithin
        · exact h.noFarther_queue hqueue k hwithin
    · obtain ⟨j, rfl, hx⟩ := ih hb
      exact hx.mono (Nat.le_succ j)

theorem Layered.within_unseen {k : Nat} (hwithin : Within (Leads next) start k y)
    (hy : y ∉ done ++ x :: queue) : ∃ j, k = j + 1 ∧ Within (Leads next) start j x := by
  obtain ⟨i, hi, hwalk⟩ := hwithin
  obtain ⟨j, rfl, hx⟩ := h.walk_to_unseen hwalk hy
  exact ⟨k - 1, by omega, hx.mono (by omega)⟩

variable [DecidableEq α]

/-- Nothing that was seen, and nothing that is found in this turn, is more than one step farther
than the element whose turn it is. -/
theorem Layered.within_succ {k : Nat} (hx : Within (Leads next) start k x)
    (hy : y ∈ (done ++ x :: queue) ++ fresh (done ++ x :: queue) (next x)) :
    Within (Leads next) start (k + 1) y := by
  rcases List.mem_append.mp hy with hseen | hfound
  · rcases List.mem_append.mp hseen with hdone | hqueue
    · obtain ⟨_, _, hfront⟩ := List.pairwise_append.mp h.ordered
      exact (hfront y hdone x List.mem_cons_self k hx).mono (Nat.le_succ k)
    · rcases List.mem_cons.mp hqueue with rfl | hqueue
      · exact hx.mono (Nat.le_succ k)
      · exact h.narrow x queue rfl y hqueue k hx
  · exact hx.step (mem_fresh.mp hfound).1

/-- What waits after this turn is no nearer than the element whose turn it is. -/
theorem Layered.within_first {k : Nat} (hwithin : Within (Leads next) start k y)
    (hy : y ∈ queue ++ fresh (done ++ x :: queue) (next x)) : Within (Leads next) start k x := by
  rcases List.mem_append.mp hy with hqueue | hfound
  · exact h.noFarther_queue hqueue k hwithin
  · obtain ⟨j, rfl, hx⟩ := h.within_unseen hwithin (mem_fresh.mp hfound).2
    exact hx.mono (Nat.le_succ j)

/-- What is found in this turn is no nearer than anything that was seen or is found with it. -/
theorem Layered.noFarther_found {z : α}
    (hz : z ∈ (done ++ x :: queue) ++ fresh (done ++ x :: queue) (next x))
    (hy : y ∈ fresh (done ++ x :: queue) (next x)) : NoFarther (Leads next) start z y := by
  intro k hwithin
  obtain ⟨j, rfl, hx⟩ := h.within_unseen hwithin (mem_fresh.mp hy).2
  exact h.within_succ hx hz

/-- One turn of the search. -/
theorem Layered.turn :
    Layered next start (done ++ [x]) (queue ++ fresh (done ++ x :: queue) (next x)) := by
  let found := fresh (done ++ x :: queue) (next x)
  have hseen : (done ++ [x]) ++ (queue ++ found) = (done ++ x :: queue) ++ found := by simp
  refine ⟨?_, ?_, ?_, ?_⟩
  · rw [hseen]
    exact List.mem_append_left _ h.start_mem
  · intro y hy z hz
    rw [hseen]
    rcases List.mem_append.mp hy with hy | hy
    · exact List.mem_append_left _ (h.closed y hy hz)
    · rw [List.mem_singleton.mp hy] at hz
      by_cases hknown : z ∈ done ++ x :: queue
      · exact List.mem_append_left _ hknown
      · exact List.mem_append_right _ (mem_fresh.mpr ⟨hz, hknown⟩)
  · rw [hseen, List.pairwise_append]
    refine ⟨h.ordered, ?_, ?_⟩
    · exact List.Pairwise.imp_of_mem
        (fun hz hy _ => h.noFarther_found (List.mem_append_right _ hz) hy) (nodup_fresh _ _)
    · exact fun z hz y hy => h.noFarther_found (List.mem_append_left _ hz) hy
  · intro z rest heq y hy k hz
    have hfirst : z ∈ queue ++ found := heq ▸ List.mem_cons_self
    have hwaits : y ∈ queue ++ found := heq ▸ List.mem_cons_of_mem z hy
    refine h.within_succ (h.within_first hz hfirst) ?_
    rw [← hseen]
    exact List.mem_append_right _ hwaits

end

variable [DecidableEq α] {start : α}

/-- All turns of the search. -/
theorem Ends.ordered {queue seen result : List α} (h : Ends next queue seen result) :
    ∀ done, seen = done ++ queue → Layered next start done queue →
      result.Pairwise (NoFarther (Leads next) start) := by
  induction h with
  | empty seen =>
    intro done hseen hlayered
    rw [hseen]
    exact hlayered.ordered
  | @turn x queue seen result _ ih =>
    intro done hseen hlayered
    subst hseen
    exact ih (done ++ [x]) (by simp) hlayered.turn

/-- The search tells what is nearer to its start first. -/
theorem pairwise_reached {all : List α} {size : Nat} (hall : ∀ x, next x ⊆ all)
    (hsize : all.length = size) (start : α) :
    (reached next size [start] [start]).Pairwise (NoFarther (Leads next) start) := by
  have hresult :=
    (ends_reached hall hsize [start] [start]).ordered [] rfl (layered_start next start)
  exact (List.pairwise_append.mp hresult).2.1

end

/-! ## Lines -/

/-- The elements to which `a` leads one after the other, to the last. -/
inductive Line {α : Type} (R : α → α → Prop) : α → List α → Prop
  | last {a : α} : (∀ b, ¬ R a b) → Line R a []
  | step {a b : α} {rest : List α} : R a b → Line R b rest → Line R a (b :: rest)

/-- A search that finds one element in each turn at most walks down the line of its start, unless
it comes to what was seen. -/
theorem Ends.line {α : Type} [DecidableEq α] {up : α → Option α}
    (hacyclic : ∀ a, ¬ TransGen (fun b c => up b = some c) a a) {queue seen result : List α}
    (h : Ends (fun a => (up a).toList) queue seen result) :
    ∀ x, queue = [x] → (∀ y ∈ seen, ¬ TransGen (fun b c => up b = some c) x y) →
      ∃ line, result = seen ++ line ∧ Line (fun b c => up b = some c) x line := by
  induction h with
  | empty => intro x hqueue; cases hqueue
  | @turn x queue seen result hends ih =>
    intro x' hqueue hnew
    obtain ⟨rfl, rfl⟩ := List.cons.inj hqueue
    cases hup : up x with
    | none =>
      have hnone : fresh seen (up x).toList = [] := by simp [hup, fresh]
      rw [hnone] at hends
      cases hends
      exact ⟨[], rfl, .last (by simp [hup])⟩
    | some p =>
      have hp : p ∉ seen := fun hmem => hnew p hmem (.single hup)
      have hone : fresh seen (up x).toList = [p] := by simp [hup, fresh, hp]
      have hnew' : ∀ y ∈ seen ++ [p], ¬ TransGen (fun b c => up b = some c) p y := by
        intro y hy hpy
        rcases List.mem_append.mp hy with hy | hy
        · exact hnew y hy (.head hup hpy)
        · rw [List.mem_singleton.mp hy] at hpy
          exact hacyclic p hpy
      rw [hone] at ih
      obtain ⟨line, hresult, hline⟩ := ih p rfl hnew'
      refine ⟨p :: line, ?_, .step hup hline⟩
      rw [hresult, List.append_assoc]
      rfl

end ClassAtlas.Search
