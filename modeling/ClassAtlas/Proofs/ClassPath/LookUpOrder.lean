-- The order in which the entries of a chain of loaders are looked up. Each loader has one block in
-- it. Those that look into themselves first have theirs in front, from the child out to the root,
-- and those that look into their parent first behind, from the root back to the child.
import ClassAtlas.ClassPath.Basic
import Mathlib.Data.List.Perm.Basic

namespace ClassAtlas

/-! ## The block of one loader -/

/-- Two lists have the same entries of each priority in the same order. -/
def SameTies (block block' : List PathEntry) : Prop :=
  ∀ p : Int, block.filter (fun e => e.priority = p) = block'.filter fun e => e.priority = p

/-- The entries of a loader by their priority, those of one priority as the loader has them. -/
structure LoaderPaths.IsBlock (l : LoaderPaths) (block : List PathEntry) : Prop where
  ordered : block.Pairwise fun a b => a.priority ≤ b.priority
  ties : SameTies block l.entries

section

variable {block block' : List PathEntry} {a e : PathEntry}

theorem SameTies.mem_iff (h : SameTies block block') (e : PathEntry) : e ∈ block ↔ e ∈ block' := by
  have hsame := congrArg (e ∈ ·) (h e.priority)
  simpa [List.mem_filter] using hsame

/-- The heads are the same if their priorities are. -/
theorem SameTies.head_eq (h : SameTies (a :: block) (e :: block'))
    (hpriority : a.priority = e.priority) : a = e := by
  have hfirst := h a.priority
  rw [List.filter_cons_of_pos (by simp), List.filter_cons_of_pos (by simp [hpriority])] at hfirst
  exact (List.cons.inj hfirst).1

theorem SameTies.tail (h : SameTies (a :: block) (a :: block')) : SameTies block block' := by
  intro p
  have hp := h p
  by_cases ha : a.priority = p
  · rw [List.filter_cons_of_pos (by simpa using ha),
      List.filter_cons_of_pos (by simpa using ha)] at hp
    exact (List.cons.inj hp).2
  · rwa [List.filter_cons_of_neg (by simpa using ha),
      List.filter_cons_of_neg (by simpa using ha)] at hp

/-- The first entry of a block is not behind any other. -/
theorem priority_le_of_mem (h : (a :: block).Pairwise fun a b => a.priority ≤ b.priority)
    (he : e ∈ a :: block) : a.priority ≤ e.priority := by
  rcases List.mem_cons.mp he with rfl | he
  · exact Int.le_refl _
  · exact List.rel_of_pairwise_cons h he

/-- A list by priority is told by its entries of each priority. -/
theorem SameTies.eq (h : SameTies block block')
    (hsorted : block.Pairwise fun a b => a.priority ≤ b.priority)
    (hsorted' : block'.Pairwise fun a b => a.priority ≤ b.priority) : block = block' := by
  induction block generalizing block' with
  | nil =>
    cases block' with
    | nil => rfl
    | cons e rest' => exact absurd ((h.mem_iff e).mpr List.mem_cons_self) List.not_mem_nil
  | cons a rest ih =>
    cases block' with
    | nil => exact absurd ((h.mem_iff a).mp List.mem_cons_self) List.not_mem_nil
    | cons e rest' =>
      have hpriority : a.priority = e.priority := Int.le_antisymm
        (priority_le_of_mem hsorted ((h.mem_iff e).mpr List.mem_cons_self))
        (priority_le_of_mem hsorted' ((h.mem_iff a).mp List.mem_cons_self))
      obtain rfl := h.head_eq hpriority
      exact congrArg (a :: ·) (ih h.tail hsorted.tail hsorted'.tail)

end

namespace LoaderPaths

theorem priority_trans (a b c : PathEntry) (hab : decide (a.priority ≤ b.priority) = true)
    (hbc : decide (b.priority ≤ c.priority) = true) : decide (a.priority ≤ c.priority) = true := by
  rw [decide_eq_true_eq] at *
  exact Int.le_trans hab hbc

theorem priority_total (a b : PathEntry) :
    (decide (a.priority ≤ b.priority) || decide (b.priority ≤ a.priority)) = true := by
  rw [Bool.or_eq_true, decide_eq_true_eq, decide_eq_true_eq]
  exact Int.le_total a.priority b.priority

theorem perm_ordered (l : LoaderPaths) : l.ordered.Perm l.entries := List.mergeSort_perm _ _

theorem pairwise_ordered (l : LoaderPaths) :
    l.ordered.Pairwise fun a b => a.priority ≤ b.priority := by
  have hsorted := List.pairwise_mergeSort priority_trans priority_total l.entries
  exact hsorted.imp of_decide_eq_true

theorem sameTies_ordered (l : LoaderPaths) : SameTies l.ordered l.entries := by
  intro p
  have hequal : (l.entries.filter fun e => e.priority = p).Pairwise
      fun a b => decide (a.priority ≤ b.priority) = true := by
    apply List.pairwise_of_forall_mem_list
    intro a ha b hb
    have hpa : a.priority = p := by simpa using (List.mem_filter.mp ha).2
    have hpb : b.priority = p := by simpa using (List.mem_filter.mp hb).2
    simp [hpa, hpb]
  -- sorting leaves a part that is sorted already in its order
  have hkept := List.sublist_mergeSort priority_trans priority_total hequal List.filter_sublist
  have hsublist := hkept.filter fun e => e.priority = p
  rw [List.filter_filter] at hsublist
  simp only [Bool.and_self] at hsublist
  exact (hsublist.eq_of_length ((perm_ordered l).filter _).length_eq.symm).symm

/-- A loader has one block. -/
theorem isBlock_iff {l : LoaderPaths} {block : List PathEntry} :
    l.IsBlock block ↔ block = l.ordered := by
  constructor
  · rintro ⟨hordered, hties⟩
    have hsame : SameTies block l.ordered := fun p => (hties p).trans (sameTies_ordered l p).symm
    exact hsame.eq hordered (pairwise_ordered l)
  · rintro rfl
    exact ⟨pairwise_ordered l, sameTies_ordered l⟩

end LoaderPaths

/-! ## The blocks of a chain -/

namespace LoaderChain

/-- The loaders of a chain that look into themselves first, from the child to the root. -/
def selfFirst (chain : LoaderChain) : LoaderChain := chain.filter fun l => l.delegation = .selfFirst

/-- The loaders of a chain that look into their parent first, from the child to the root. -/
def parentFirst (chain : LoaderChain) : LoaderChain :=
  chain.filter fun l => l.delegation = .parentFirst

/-- The loaders of a chain as they are looked up. -/
def lookUpOrder (chain : LoaderChain) : LoaderChain := selfFirst chain ++ (parentFirst chain).reverse

theorem lookUpOrder_selfFirst {loader : LoaderPaths} (h : loader.delegation = .selfFirst)
    (parents : LoaderChain) : lookUpOrder (loader :: parents) = loader :: lookUpOrder parents := by
  simp [lookUpOrder, selfFirst, parentFirst, h]

theorem lookUpOrder_parentFirst {loader : LoaderPaths} (h : loader.delegation = .parentFirst)
    (parents : LoaderChain) :
    lookUpOrder (loader :: parents) = lookUpOrder parents ++ [loader] := by
  simp [lookUpOrder, selfFirst, parentFirst, h]

/-- Each loader has one place in the order of look-up. -/
theorem perm_lookUpOrder (chain : LoaderChain) : (lookUpOrder chain).Perm chain := by
  induction chain with
  | nil => exact List.Perm.refl _
  | cons loader parents ih =>
    cases h : loader.delegation with
    | selfFirst =>
      rw [lookUpOrder_selfFirst h]
      exact ih.cons loader
    | parentFirst =>
      rw [lookUpOrder_parentFirst h]
      exact (List.perm_append_singleton loader _).trans (ih.cons loader)

theorem flatten_eq (chain : LoaderChain) :
    flatten chain = (lookUpOrder chain).flatMap LoaderPaths.ordered := by
  induction chain with
  | nil => rfl
  | cons loader parents ih =>
    rw [flatten]
    cases h : loader.delegation with
    | selfFirst => simp only [ih, lookUpOrder_selfFirst h, List.flatMap_cons]
    | parentFirst =>
      simp only [ih, lookUpOrder_parentFirst h, List.flatMap_append, List.flatMap_singleton]

/-- No entry of any loader is lost and none is there twice. -/
theorem perm_flatten (chain : LoaderChain) :
    (flatten chain).Perm (chain.flatMap LoaderPaths.entries) := by
  rw [flatten_eq]
  exact (perm_lookUpOrder chain).flatMap fun l _ => LoaderPaths.perm_ordered l

/-- For all chains of loaders: the entries come in one block for each loader, first those of the
loaders that look into themselves first, from the child out to the root, and then those of the
loaders that look into their parent first, from the root back to the child. A block has the entries
of its loader by their priority, and those of one priority in the order of the loader. So every
entry of every loader is there, and as often as the loaders have it. -/
theorem self_first_loaders_come_before_parent_first_ones (chain : LoaderChain) :
    flatten chain = (lookUpOrder chain).flatMap LoaderPaths.ordered ∧
    (lookUpOrder chain).Perm chain ∧
    (∀ loader block, LoaderPaths.IsBlock loader block ↔ block = loader.ordered) ∧
    (flatten chain).Perm (chain.flatMap LoaderPaths.entries) :=
  ⟨flatten_eq chain, perm_lookUpOrder chain, fun _ _ => LoaderPaths.isBlock_iff,
    perm_flatten chain⟩

/-- A child that looks into itself first, its parent that does not, and a root that does. -/
example :
    let child : LoaderPaths := ⟨"child", [⟨"/c.jar", none, 5, none⟩, ⟨"/b.jar", none, -1, none⟩,
      ⟨"/d.jar", none, 5, none⟩], .selfFirst⟩
    let parent : LoaderPaths := ⟨"parent", [⟨"/a.jar", none, -9, none⟩], .parentFirst⟩
    let root : LoaderPaths := ⟨"root", [⟨"/e.jar", none, 9, none⟩], .selfFirst⟩
    (flatten [child, parent, root]).map PathEntry.path =
      ["/b.jar", "/c.jar", "/d.jar", "/e.jar", "/a.jar"] := by
  cbv

end LoaderChain

end ClassAtlas
