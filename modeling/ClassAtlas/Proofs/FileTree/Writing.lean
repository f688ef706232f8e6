-- What writing a file changes. A file is no way to anywhere, so writing one where there is
-- no folder and no link leaves all paths leading where they led.
import ClassAtlas.FileTree.Listing
import ClassAtlas.Proofs.Assigned

namespace ClassAtlas.FileTree

/-! ## Places -/

/-- What stands at a place other than the root is one of the nodes. -/
theorem mem_nodes_of_at? {t : FileTree} {place : Place} {node : FileNode}
    (h : t.at? place = some node) (hplace : place ≠ []) : (place, node) ∈ t.nodes := by
  rw [at?, if_neg hplace] at h
  obtain ⟨front, back, hnodes, _⟩ := List.lookup_eq_some_iff.mp h
  simp [hnodes]

theorem put_nodes (t : FileTree) (place : Place) (node : FileNode) :
    (t.put place node).nodes = assigned t.nodes place node := rfl

theorem at?_put (t : FileTree) {place : Place} (hplace : place ≠ []) (node : FileNode) (q : Place) :
    (t.put place node).at? q = if q = place then some node else t.at? q := by
  unfold at?
  rw [put_nodes, lookup_assigned]
  by_cases hq : q = []
  · rw [if_pos hq, if_neg (by rw [hq]; exact Ne.symm hplace), if_pos hq]
  · rw [if_neg hq, if_neg hq]

/-- Nothing stands at a place, or a file. -/
def Plain (t : FileTree) (place : Place) : Prop :=
  ∀ node, t.at? place = some node → ∃ bytes modified, node = .file bytes modified

theorem Plain.hasFolder {t : FileTree} {place : Place} (h : t.Plain place) :
    t.hasFolder place = false := by
  unfold FileTree.hasFolder
  rw [decide_eq_false_iff_not]
  intro hfolder
  obtain ⟨bytes, modified, heq⟩ := h _ hfolder
  cases heq

/-- Two trees differ only in files, and in whether there is one. -/
def SameWays (t t' : FileTree) : Prop :=
  ∀ q, t'.at? q = t.at? q ∨ t.Plain q ∧ t'.Plain q

theorem SameWays.hasFolder {t t' : FileTree} (h : SameWays t t') (q : Place) :
    t'.hasFolder q = t.hasFolder q := by
  rcases h q with hsame | ⟨hplain, hplain'⟩
  · unfold FileTree.hasFolder
    rw [hsame]
  · rw [hplain.hasFolder, hplain'.hasFolder]

theorem descend_file {t : FileTree} {place : Place} (h : t.Plain place)
    (follow : Place → List String → Option Place) (rest : List String) :
    t.descend follow place rest = if rest = [] then some place else none := by
  cases rest with
  | nil => rfl
  | cons name rest =>
    rw [descend, h.hasFolder]
    rfl

/-- From a place that is plain a path leads no further. -/
theorem descend_plain {t : FileTree} {current : Place} {name : String}
    (h : t.Plain (current ++ [name])) (hname : Path.isIdle name = false) (hup : name ≠ "..")
    (follow : Place → List String → Option Place) (rest : List String) :
    t.descend follow current (name :: rest) =
      if t.hasFolder current && rest.isEmpty then some (current ++ [name]) else none := by
  have hrest : (rest.isEmpty = true) ↔ rest = [] := List.isEmpty_iff
  rw [descend]
  cases hfolder : t.hasFolder current with
  | false => rfl
  | true =>
    simp only [Bool.not_true, Bool.false_eq_true, if_false, hname, hup, Bool.true_and, hrest]
    split
    · rfl
    · rename_i target hlink
      obtain ⟨bytes, modified, heq⟩ := h _ hlink
      cases heq
    · exact descend_file h follow rest

theorem SameWays.descend {t t' : FileTree} (h : SameWays t t')
    (follow : Place → List String → Option Place) (current : Place) (names : List String) :
    t'.descend follow current names = t.descend follow current names := by
  induction names generalizing current with
  | nil => rfl
  | cons name rest ih =>
    by_cases hidle : Path.isIdle name = true
    · rw [FileTree.descend, FileTree.descend, h.hasFolder, hidle, if_pos rfl, if_pos rfl, ih]
    by_cases hup : name = ".."
    · rw [FileTree.descend, FileTree.descend, h.hasFolder, if_neg hidle, if_neg hidle, if_pos hup,
        if_pos hup, ih]
    rcases h (current ++ [name]) with hsame | ⟨hplain, hplain'⟩
    · rw [FileTree.descend, FileTree.descend, h.hasFolder, hsame]
      simp only [ih]
    · have hname : Path.isIdle name = false := Bool.eq_false_iff.mpr hidle
      rw [descend_plain hplain hname hup, descend_plain hplain' hname hup, h.hasFolder]

theorem SameWays.followLinks {t t' : FileTree} (h : SameWays t t') (budget : Nat) :
    t'.followLinks budget = t.followLinks budget := by
  induction budget with
  | zero =>
    funext current names
    exact h.descend _ current names
  | succ budget ih =>
    funext current names
    rw [FileTree.followLinks, FileTree.followLinks, ih]
    exact h.descend _ current names

theorem SameWays.place? {t t' : FileTree} (h : SameWays t t')
    (hworking : t'.workingFolder = t.workingFolder) (path : String) :
    t'.place? path = t.place? path := by
  unfold FileTree.place?
  rw [h.followLinks, hworking]

theorem SameWays.ownPlace? {t t' : FileTree} (h : SameWays t t')
    (hworking : t'.workingFolder = t.workingFolder) (path : String) :
    t'.ownPlace? path = t.ownPlace? path := by
  unfold FileTree.ownPlace?
  rw [h.followLinks, hworking]
  simp only [h.hasFolder]

/-! ## Writing a file -/

theorem write?_eq_some {t t' : FileTree} {path : String} {bytes : Bytes}
    (h : t.write? path bytes = some t') : ∃ place, t.place? path = some place ∧
      t.at? place ≠ some .folder ∧ t' = t.put place (.file bytes t.clock) := by
  unfold write? at h
  cases hplace : t.place? path with
  | none => simp [hplace] at h
  | some place =>
    simp only [hplace, Option.bind_eq_bind, Option.bind_some] at h
    split at h
    · cases h
    · rename_i hfolder
      refine ⟨place, rfl, ?_, (Option.some.inj h).symm⟩
      intro heq
      exact hfolder heq

/-- Whether a place is a link can be told from what stands there. -/
theorem plain_of_not_link {t : FileTree} {place : Place} (hfolder : t.at? place ≠ some .folder)
    (hlink : ∀ target, t.at? place ≠ some (.link target)) : t.Plain place := by
  intro node hnode
  cases node with
  | folder => exact absurd hnode hfolder
  | file bytes modified => exact ⟨bytes, modified, rfl⟩
  | link target => exact absurd hnode (hlink target)

section

variable {t t' : FileTree} {path : String} {bytes : Bytes}
  (hwrite : t.write? path bytes = some t')
  (hlink : ∀ place, t.place? path = some place → ∀ target, t.at? place ≠ some (.link target))

include hwrite

theorem workingFolder_write? : t'.workingFolder = t.workingFolder := by
  obtain ⟨place, _, _, rfl⟩ := write?_eq_some hwrite
  rfl

include hlink

/-- A path that leads to no link: writing a file there changes only that file. -/
theorem at?_write? : ∃ place, t.place? path = some place ∧ t.Plain place ∧
    ∀ q, t'.at? q = if q = place then some (.file bytes t.clock) else t.at? q := by
  obtain ⟨place, hplace, hfolder, rfl⟩ := write?_eq_some hwrite
  have hne : place ≠ [] := by
    rintro rfl
    exact hfolder rfl
  exact ⟨place, hplace, plain_of_not_link hfolder (hlink place hplace), at?_put t hne _⟩

theorem sameWays_write? : SameWays t t' := by
  obtain ⟨place, _, hplain, hat⟩ := at?_write? hwrite hlink
  intro q
  by_cases hq : q = place
  · subst hq
    refine Or.inr ⟨hplain, fun node hnode => ?_⟩
    rw [hat, if_pos rfl] at hnode
    exact ⟨_, _, (Option.some.inj hnode).symm⟩
  · exact Or.inl (by rw [hat, if_neg hq])

theorem place?_write? (other : String) : t'.place? other = t.place? other :=
  (sameWays_write? hwrite hlink).place? (workingFolder_write? hwrite) other

theorem ownPlace?_write? (other : String) : t'.ownPlace? other = t.ownPlace? other :=
  (sameWays_write? hwrite hlink).ownPlace? (workingFolder_write? hwrite) other

/-- Writing a file makes no link. -/
theorem isLink_write? {q : Place} (h : t.isLink q = false) : t'.isLink q = false := by
  obtain ⟨place, _, _, hat⟩ := at?_write? hwrite hlink
  unfold isLink
  rw [hat]
  split
  · rename_i target hat'
    split at hat'
    · cases hat'
    · simp [isLink, hat'] at h
  · rfl

/-- What is read behind a write was written or was there. -/
theorem read?_write? (other : String) : t'.read? other =
    if t.place? other = t.place? path then some bytes else t.read? other := by
  obtain ⟨place, hplace, _, hat⟩ := at?_write? hwrite hlink
  unfold read? find?
  rw [place?_write? hwrite hlink, hplace]
  cases hother : t.place? other with
  | none => simp
  | some q =>
    by_cases hq : q = place
    · simp [hat, hq]
    · simp [hat, hq]

end

end ClassAtlas.FileTree
