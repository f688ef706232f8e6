-- What making folders and removing them changes. A folder is made only where nothing stands, so
-- every path that led to a place leads there still. Below a place that is removed nothing is left.
import ClassAtlas.Proofs.FileTree.Canonical
import ClassAtlas.Proofs.FileTree.Writing

namespace ClassAtlas.FileTree

/-! ## More folders -/

/-- The second tree is the first one, but for folders where nothing stood. -/
structure MoreFolders (t t' : FileTree) : Prop where
  working : t'.workingFolder = t.workingFolder
  at?_eq : ∀ q, t'.at? q = t.at? q ∨ t.at? q = none ∧ t'.at? q = some .folder

theorem MoreFolders.refl (t : FileTree) : MoreFolders t t := ⟨rfl, fun _ => Or.inl rfl⟩

theorem moreFolders_put {t : FileTree} {place : Place} (h : t.at? place = none) :
    MoreFolders t (t.put place .folder) := by
  have hne : place ≠ [] := by
    rintro rfl
    cases h
  refine ⟨rfl, fun q => ?_⟩
  rw [at?_put t hne]
  by_cases hq : q = place
  · rw [hq, if_pos rfl]
    exact Or.inr ⟨h, rfl⟩
  · rw [if_neg hq]
    exact Or.inl rfl

section

variable {t t' t'' : FileTree}

theorem MoreFolders.trans (h : MoreFolders t t') (h' : MoreFolders t' t'') : MoreFolders t t'' := by
  refine ⟨h'.working.trans h.working, fun q => ?_⟩
  rcases h.at?_eq q with heq | ⟨hnone, hfolder⟩
  · rw [← heq]
    exact h'.at?_eq q
  · rcases h'.at?_eq q with heq' | ⟨hnone', _⟩
    · exact Or.inr ⟨hnone, heq'.trans hfolder⟩
    · rw [hnone'] at hfolder
      cases hfolder

variable (h : MoreFolders t t')

include h

theorem MoreFolders.at?_some {q : Place} {node : FileNode} (hat : t.at? q = some node) :
    t'.at? q = some node := by
  rcases h.at?_eq q with heq | ⟨hnone, _⟩
  · rw [heq, hat]
  · rw [hnone] at hat
    cases hat

/-- What is no folder was there before. -/
theorem MoreFolders.at?_back {q : Place} {node : FileNode} (hat : t'.at? q = some node)
    (hnode : node ≠ .folder) : t.at? q = some node := by
  rcases h.at?_eq q with heq | ⟨_, hfolder⟩
  · rw [← heq, hat]
  · rw [hfolder] at hat
    exact absurd (Option.some.inj hat).symm hnode

theorem MoreFolders.hasFolder {q : Place} (hfolder : t.hasFolder q = true) : t'.hasFolder q = true :=
  decide_eq_true (h.at?_some (of_decide_eq_true hfolder))

theorem MoreFolders.descend {follow follow' : Place → List String → Option Place}
    (hfollow : ∀ {current names place}, follow current names = some place →
      follow' current names = some place) {current : Place} {names : List String} {place : Place}
    (hplace : t.descend follow current names = some place) :
    t'.descend follow' current names = some place := by
  induction names generalizing current with
  | nil => exact hplace
  | cons name rest ih =>
    rw [descend_cons] at hplace ⊢
    cases hfolder : t.hasFolder current with
    | false =>
      rw [hfolder] at hplace
      cases hplace
    | true =>
      rw [hfolder] at hplace
      rw [h.hasFolder hfolder]
      simp only [Bool.not_true, Bool.false_eq_true, if_false] at hplace ⊢
      split
      · rw [if_pos ‹_›] at hplace
        exact ih hplace
      rw [if_neg ‹_›] at hplace
      split
      · rw [if_pos ‹_›] at hplace
        exact ih hplace
      rw [if_neg ‹_›] at hplace
      cases hat : t.at? (current ++ [name]) with
      | none =>
        -- nothing stood there, so the path ends there; by now a folder may stand there
        simp only [hat] at hplace
        split at hplace
        · rename_i hrest
          subst hrest
          rcases h.at?_eq (current ++ [name]) with heq | ⟨_, hmade⟩
          · rw [heq, hat]
            exact hplace
          · rw [hmade]
            exact hplace
        · cases hplace
      | some node =>
        rw [h.at?_some hat]
        simp only [hat] at hplace
        cases node with
        | link target => exact hfollow hplace
        | folder => exact ih hplace
        | file bytes modified => exact ih hplace

theorem MoreFolders.followLinks {budget : Nat} {current : Place} {names : List String} {place : Place}
    (hplace : t.followLinks budget current names = some place) :
    t'.followLinks budget current names = some place := by
  induction budget generalizing current names place with
  | zero => exact h.descend (fun hnone => by cases hnone) hplace
  | succ budget ih => exact h.descend ih hplace

theorem MoreFolders.place? {path : String} {place : Place} (hplace : t.place? path = some place) :
    t'.place? path = some place := by
  unfold FileTree.place? at hplace ⊢
  split at hplace
  · cases hplace
  · rw [if_neg ‹_›, h.working]
    exact h.followLinks hplace

/-- What is read at a path that led to a place is read there still. -/
theorem MoreFolders.read? {path : String} {place : Place} (hplace : t.place? path = some place) :
    t'.read? path = t.read? path := by
  unfold FileTree.read? find?
  rw [hplace, h.place? hplace]
  rcases h.at?_eq place with heq | ⟨hnone, hfolder⟩
  · simp only [Option.bind_eq_bind, Option.bind_some, heq]
  · simp only [Option.bind_eq_bind, Option.bind_some, hnone, hfolder, Option.bind_none]
    rfl

end

theorem moreFolders_makeFolders {t t' : FileTree} {current : Place} {names : List String}
    (h : t.makeFolders current names = some t') : MoreFolders t t' := by
  induction names generalizing t current with
  | nil =>
    obtain rfl := Option.some.inj h
    exact .refl t
  | cons name rest ih =>
    rw [makeFolders] at h
    split at h
    · exact ih h
    split at h
    · exact ih h
    split at h
    · exact (moreFolders_put ‹_›).trans (ih h)
    · exact ih h
    · cases h
    · split at h
      · exact ih h
      · cases h

theorem moreFolders_makeFolder? {t t' : FileTree} {path : String} (h : t.makeFolder? path = some t') :
    MoreFolders t t' := by
  unfold makeFolder? at h
  split at h
  · obtain rfl := Option.some.inj h
    exact .refl t
  · exact moreFolders_makeFolders h

/-! ## Removing -/

/-- Removing leaves nothing at the place that a path names, nor below it. -/
theorem at?_remove? {t t' : FileTree} {path : String} {top : Place} (h : t.remove? path = some t')
    (htop : t.ownPlace? path = some top) {q : Place} {node : FileNode} (hq : q ≠ [])
    (hat : t'.at? q = some node) : within q top = false := by
  unfold remove? at h
  rw [htop, Option.bind_eq_bind, Option.bind_some] at h
  split at h
  · cases h
  · obtain rfl := Option.some.inj h
    simpa using (List.mem_filter.mp (mem_nodes_of_at? hat hq)).2

theorem within_append (top rest : Place) : within (top ++ rest) top = true := by simp [within]

end ClassAtlas.FileTree
