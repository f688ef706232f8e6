-- Lists of pairs as tables. A value is put in the place of the one that stands at its key, or
-- behind all others if none does, and the look-up finds it there and all others as before.

namespace ClassAtlas

variable {α β : Type} [BEq α] [LawfulBEq α] [DecidableEq α]

theorem lookup_cons_eq (k q : α) (b : β) (rest : List (α × β)) :
    ((k, b) :: rest).lookup q = if q = k then some b else rest.lookup q := by
  rw [List.lookup_cons]
  by_cases h : q = k
  · rw [if_pos h, beq_iff_eq.mpr h]
  · rw [if_neg h, beq_eq_false_iff_ne.mpr h]

/-- A table with one more value. -/
def assigned (table : List (α × β)) (k : α) (b : β) : List (α × β) :=
  if table.any fun e => e.1 = k then table.map fun e => if e.1 = k then (k, b) else e
  else table ++ [(k, b)]

theorem lookup_append_of_ne {k q : α} (h : q ≠ k) (b : β) (table : List (α × β)) :
    (table ++ [(k, b)]).lookup q = table.lookup q := by
  simp [List.lookup_append, lookup_cons_eq, h]

theorem lookup_replace_of_ne {k q : α} (h : q ≠ k) (b : β) (table : List (α × β)) :
    (table.map fun e => if e.1 = k then (k, b) else e).lookup q = table.lookup q := by
  induction table with
  | nil => rfl
  | cons e rest ih =>
    obtain ⟨j, c⟩ := e
    rw [List.map_cons, lookup_cons_eq j]
    by_cases hj : j = k
    · subst hj
      rw [if_pos rfl, lookup_cons_eq, if_neg h, if_neg h, ih]
    · rw [if_neg hj, lookup_cons_eq, ih]

theorem lookup_replace_self {k : α} (b : β) {table : List (α × β)}
    (h : (table.any fun e => e.1 = k) = true) :
    (table.map fun e => if e.1 = k then (k, b) else e).lookup k = some b := by
  induction table with
  | nil => cases h
  | cons e rest ih =>
    obtain ⟨j, c⟩ := e
    rw [List.map_cons]
    by_cases hj : j = k
    · rw [if_pos hj, lookup_cons_eq, if_pos rfl]
    · rw [if_neg hj, lookup_cons_eq, if_neg (Ne.symm hj)]
      exact ih (by simpa [hj] using h)

theorem lookup_append_self {k : α} (b : β) {table : List (α × β)}
    (h : (table.any fun e => e.1 = k) = false) : (table ++ [(k, b)]).lookup k = some b := by
  have hnone : table.lookup k = none := by
    refine List.lookup_eq_none_iff.mpr fun e he => bne_iff_ne.mpr fun heq => ?_
    exact List.any_eq_false.mp h e he (decide_eq_true heq.symm)
  rw [List.lookup_append, hnone, Option.none_or, List.lookup_cons_self]

theorem lookup_assigned (table : List (α × β)) (k q : α) (b : β) :
    (assigned table k b).lookup q = if q = k then some b else table.lookup q := by
  unfold assigned
  by_cases hq : q = k
  · subst hq
    rw [if_pos rfl]
    split
    · rename_i hany
      exact lookup_replace_self b hany
    · rename_i hany
      exact lookup_append_self b (Bool.eq_false_iff.mpr hany)
  · rw [if_neg hq]
    split
    · exact lookup_replace_of_ne hq b table
    · exact lookup_append_of_ne hq b table

end ClassAtlas
