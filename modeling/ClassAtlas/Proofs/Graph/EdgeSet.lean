-- The edges of a record are complete and say nothing twice: each declaration has an edge to every
-- class that stands at it, and the constant pool adds only what stands at no declaration.
import ClassAtlas.Proofs.Graph.Occurrences
import ClassAtlas.Proofs.Graph.Slots

namespace ClassAtlas

/-! ## What the set keeps out -/

section

variable {owner : String} {edges mentions : List Edge}

theorem covers_self (e : Edge) : e.covers e = true := covers_iff.mpr ⟨rfl, rfl, Or.inl rfl⟩

theorem nodup_addTo (h : edges.Nodup) (new : Edge) : (Edge.addTo owner edges new).Nodup := by
  unfold Edge.addTo
  split
  · exact h
  · rename_i hkept
    simp only [Bool.or_eq_true, List.any_eq_true, not_or, not_exists, not_and] at hkept
    have hnew : new ∉ edges := fun hmem => hkept.2 new hmem (covers_self new)
    rw [List.nodup_append]
    refine ⟨h, List.nodup_singleton new, ?_⟩
    intro e he e' he' heq
    rw [List.mem_singleton.mp he'] at heq
    exact hnew (heq ▸ he)

theorem nodup_foldl_addTo (h : edges.Nodup) : (mentions.foldl (Edge.addTo owner) edges).Nodup := by
  induction mentions generalizing edges with
  | nil => exact h
  | cons new rest ih => exact ih (nodup_addTo h new)

/-- No edge to the owner comes in but one to a supertype. -/
theorem isHierarchy_of_mem_addTo (h : ∀ e ∈ edges, e.target = owner → e.kind.isHierarchy)
    {new e : Edge} (he : e ∈ Edge.addTo owner edges new) (htarget : e.target = owner) :
    e.kind.isHierarchy := by
  unfold Edge.addTo at he
  split at he
  · exact h e he htarget
  · rename_i hkept
    rcases List.mem_append.mp he with he | he
    · exact h e he htarget
    · rw [List.mem_singleton.mp he] at htarget ⊢
      by_contra hkind
      simp [htarget, hkind] at hkept

theorem isHierarchy_of_mem_foldl (h : ∀ e ∈ edges, e.target = owner → e.kind.isHierarchy)
    {e : Edge} (he : e ∈ mentions.foldl (Edge.addTo owner) edges) (htarget : e.target = owner) :
    e.kind.isHierarchy := by
  induction mentions generalizing edges with
  | nil => exact h e he htarget
  | cons new rest ih => exact ih (fun _ he' => isHierarchy_of_mem_addTo h he') he

end

theorem EdgeKind.isHierarchy_iff {kind : EdgeKind} :
    kind.isHierarchy = true ↔ kind = .superclass ∨ kind = .interface := by
  cases kind <;> simp [isHierarchy]

namespace ClassRecord

variable {r : ClassRecord} {x : String}

/-! ## Edges of declarations -/

/-- The edges of a record before the constant pool is looked at. -/
def declaredEdges (r : ClassRecord) : List Edge := r.declaredMentions.foldl (Edge.addTo r.name) []

/-- The classes that only the constant pool names. -/
def pooled (r : ClassRecord) : List String :=
  r.referencedClasses.filter fun name =>
    name ≠ r.name && !r.declaredEdges.any fun e => e.target = name

theorem edges_eq (r : ClassRecord) :
    r.edges = (mentionsOf .mention .body r.pooled).foldl (Edge.addTo r.name) r.declaredEdges := rfl

theorem mentionsAt_of_mem {e : Edge} (he : e ∈ r.declaredMentions) :
    r.MentionsAt e.target e.origin := by
  unfold declaredMentions at he
  rw [List.mem_append, List.mem_append, List.mem_flatMap, List.mem_flatMap] at he
  rcases he with (he | ⟨f, hf, he⟩) | ⟨m, hm, he⟩
  · obtain ⟨horigin, hnames⟩ := (tells_headerMentions r).1 e he
    rw [horigin]
    exact hnames.mentionsAt
  · obtain ⟨horigin, hnames⟩ := f.tells_mentions.1 e he
    rw [horigin]
    exact mentionsAt_of_field hf hnames
  · obtain ⟨horigin, hnames⟩ := m.tells_mentions.1 e he
    rw [horigin]
    exact mentionsAt_of_method hm hnames

theorem MentionsAt.exists_mention {origin : Origin} (h : r.MentionsAt x origin) :
    ∃ e ∈ r.declaredMentions, e.target = x ∧ e.origin = origin := by
  unfold declaredMentions
  rcases h.names with ⟨rfl, hnames⟩ | ⟨f, hf, rfl, hnames⟩ | ⟨m, hm, rfl, hnames⟩
  · obtain ⟨e, he, htarget⟩ := (tells_headerMentions r).2 x hnames
    exact ⟨e, by simp [he], htarget, ((tells_headerMentions r).1 e he).1⟩
  · obtain ⟨e, he, htarget⟩ := f.tells_mentions.2 x hnames
    refine ⟨e, ?_, htarget, (f.tells_mentions.1 e he).1⟩
    exact List.mem_append_left _ (List.mem_append_right _ (List.mem_flatMap.mpr ⟨f, hf, he⟩))
  · obtain ⟨e, he, htarget⟩ := m.tells_mentions.2 x hnames
    refine ⟨e, ?_, htarget, (m.tells_mentions.1 e he).1⟩
    exact List.mem_append_right _ (List.mem_flatMap.mpr ⟨m, hm, he⟩)

theorem MentionsAt.ne_body {origin : Origin} (h : r.MentionsAt x origin) : origin ≠ .body := by
  rcases h.names with ⟨rfl, _⟩ | ⟨f, _, rfl, _⟩ | ⟨m, _, rfl, _⟩ <;> rintro ⟨⟩

theorem mentionsAt_of_mem_declaredEdges {e : Edge} (he : e ∈ r.declaredEdges) :
    r.MentionsAt e.target e.origin := by
  rcases mem_foldl_addTo he with he | he
  · cases he
  · exact mentionsAt_of_mem he

theorem MentionsAt.exists_declaredEdge {origin : Origin} (h : r.MentionsAt x origin)
    (hother : x ≠ r.name) : ∃ e ∈ r.declaredEdges, e.target = x ∧ e.origin = origin := by
  obtain ⟨new, hnew, rfl, rfl⟩ := h.exists_mention
  obtain ⟨old, hold, hcovers⟩ : ∃ old ∈ r.declaredEdges, old.covers new :=
    exists_covers_foldl hnew (Or.inl hother)
  obtain ⟨htarget, horigin, _⟩ := covers_iff.mp hcovers
  exact ⟨old, hold, htarget, horigin⟩

/-! ## Edges of the constant pool -/

theorem mem_pooled : x ∈ r.pooled ↔
    x ∈ r.referencedClasses ∧ x ≠ r.name ∧ ∀ e ∈ r.declaredEdges, e.target ≠ x := by
  unfold pooled
  simp [List.mem_filter]

/-- An edge stands at a declaration, or leads to what only the constant pool names. -/
theorem mem_edges_cases {e : Edge} (he : e ∈ r.edges) :
    e ∈ r.declaredEdges ∨ (e.target ∈ r.pooled ∧ e.origin = .body) := by
  rw [edges_eq] at he
  rcases mem_foldl_addTo he with he | he
  · exact Or.inl he
  · obtain ⟨htarget, _, horigin⟩ := mem_mentionsOf.mp he
    exact Or.inr ⟨htarget, horigin⟩

theorem declaredEdges_subset : r.declaredEdges ⊆ r.edges := subset_foldl_addTo

theorem exists_body_edge (hx : x ∈ r.pooled) : ∃ e ∈ r.edges, e.target = x ∧ e.origin = .body := by
  have hmention : (⟨.mention, x, .body⟩ : Edge) ∈ mentionsOf .mention .body r.pooled :=
    mem_mentionsOf.mpr ⟨hx, rfl, rfl⟩
  obtain ⟨old, hold, hcovers⟩ : ∃ old ∈ r.edges, old.covers ⟨.mention, x, .body⟩ :=
    exists_covers_foldl hmention (Or.inl (mem_pooled.mp hx).2.1)
  obtain ⟨htarget, horigin, _⟩ := covers_iff.mp hcovers
  exact ⟨old, hold, htarget, horigin⟩

/-- At a declaration stand the edges to what the declaration mentions. -/
theorem exists_edge_at_iff {origin : Origin} (hother : x ≠ r.name) (hdeclared : origin ≠ .body) :
    (∃ e ∈ r.edges, e.target = x ∧ e.origin = origin) ↔ r.MentionsAt x origin := by
  constructor
  · rintro ⟨e, he, rfl, rfl⟩
    rcases mem_edges_cases he with he | ⟨_, horigin⟩
    · exact mentionsAt_of_mem_declaredEdges he
    · exact absurd horigin hdeclared
  · intro h
    obtain ⟨e, he, htarget, horigin⟩ := h.exists_declaredEdge hother
    exact ⟨e, declaredEdges_subset he, htarget, horigin⟩

theorem exists_body_edge_iff : (∃ e ∈ r.edges, e.target = x ∧ e.origin = .body) ↔ x ∈ r.pooled := by
  constructor
  · rintro ⟨e, he, rfl, horigin⟩
    rcases mem_edges_cases he with he | ⟨htarget, _⟩
    · exact absurd horigin (mentionsAt_of_mem_declaredEdges he).ne_body
    · exact htarget
  · exact exists_body_edge

/-- What only the constant pool names has edges of no other origin. -/
theorem mem_pooled_iff (hother : x ≠ r.name) : x ∈ r.pooled ↔
    x ∈ r.referencedClasses ∧ ∀ e ∈ r.edges, e.target = x → e.origin = .body := by
  rw [mem_pooled]
  constructor
  · rintro ⟨hx, _, hnone⟩
    refine ⟨hx, fun e he htarget => ?_⟩
    rcases mem_edges_cases he with he | ⟨_, horigin⟩
    · exact absurd htarget (hnone e he)
    · exact horigin
  · rintro ⟨hx, hbody⟩
    refine ⟨hx, hother, fun e he htarget => ?_⟩
    exact (mentionsAt_of_mem_declaredEdges he).ne_body (hbody e (declaredEdges_subset he) htarget)

theorem exists_edge_iff (hother : x ≠ r.name) : (∃ e ∈ r.edges, e.target = x) ↔ r.Mentions x := by
  constructor
  · rintro ⟨e, he, rfl⟩
    rcases mem_edges_cases he with he | ⟨htarget, _⟩
    · exact Or.inl ⟨e.origin, mentionsAt_of_mem_declaredEdges he⟩
    · exact Or.inr (mem_pooled.mp htarget).1
  · rintro (⟨origin, h⟩ | hx)
    · obtain ⟨e, he, htarget, _⟩ := (exists_edge_at_iff hother h.ne_body).mpr h
      exact ⟨e, he, htarget⟩
    · by_cases hpooled : x ∈ r.pooled
      · obtain ⟨e, he, htarget, _⟩ := exists_body_edge hpooled
        exact ⟨e, he, htarget⟩
      · -- a declaration names it as well
        by_contra hnone
        refine hpooled (mem_pooled.mpr ⟨hx, hother, fun e he htarget => hnone ?_⟩)
        exact ⟨e, declaredEdges_subset he, htarget⟩

/-- An edge says what the record names where the edge stands. -/
theorem names_of_mem_edges {e : Edge} (he : e ∈ r.edges) : r.Names e.origin.visibility e.target := by
  rcases mem_edges_cases he with he | ⟨htarget, horigin⟩
  · exact Or.inl ⟨e.origin, rfl, mentionsAt_of_mem_declaredEdges he⟩
  · rw [horigin]
    exact Or.inr ⟨rfl, (mem_pooled.mp htarget).1⟩

theorem pairwise_edges (r : ClassRecord) : r.edges.Pairwise fun e e' =>
    ¬(e.kind = e'.kind ∧ e.target = e'.target ∧ e.origin = e'.origin) := by
  have hnodup : r.edges.Nodup := nodup_foldl_addTo (nodup_foldl_addTo .nil)
  refine hnodup.imp fun {e e'} hne heq => ?_
  obtain ⟨hkind, htarget, horigin⟩ := heq
  cases e
  cases e'
  simp only at hkind htarget horigin
  simp [hkind, htarget, horigin] at hne

theorem kind_of_own_edge {e : Edge} (he : e ∈ r.edges) (htarget : e.target = r.name) :
    e.kind = .superclass ∨ e.kind = .interface := by
  have hdeclared : ∀ e ∈ r.declaredEdges, e.target = r.name → e.kind.isHierarchy :=
    fun _ he => isHierarchy_of_mem_foldl (by simp) he
  exact EdgeKind.isHierarchy_iff.mp (isHierarchy_of_mem_foldl hdeclared he htarget)

/-- The edges of a record lead to all that it mentions and to nothing else. Each declaration has
an edge to every class that stands at it, no edge is there twice, the class itself is only a
supertype, and what the constant pool names has an edge of its own if no declaration has one. -/
theorem edges_are_complete_and_minimal (r : ClassRecord) :
    (∀ x, x ≠ r.name → ((∃ e ∈ r.edges, e.target = x) ↔ r.Mentions x)) ∧
      (∀ x origin, x ≠ r.name → origin ≠ .body →
        ((∃ e ∈ r.edges, e.target = x ∧ e.origin = origin) ↔ r.MentionsAt x origin)) ∧
      (r.edges.Pairwise fun e e' =>
        ¬(e.kind = e'.kind ∧ e.target = e'.target ∧ e.origin = e'.origin)) ∧
      (∀ e ∈ r.edges, e.target = r.name → e.kind = .superclass ∨ e.kind = .interface) ∧
      ∀ x, x ≠ r.name → ((∃ e ∈ r.edges, e.target = x ∧ e.origin = .body) ↔
        x ∈ r.referencedClasses ∧ ∀ e ∈ r.edges, e.target = x → e.origin = .body) := by
  refine ⟨fun x hother => exists_edge_iff hother,
    fun x origin hother hdeclared => exists_edge_at_iff hother hdeclared, pairwise_edges r,
    fun e he htarget => kind_of_own_edge he htarget, fun x hother => ?_⟩
  rw [exists_body_edge_iff, mem_pooled_iff hother]

/-- A nest that extends itself, with an egg in a field; only the constant pool names its straw. -/
theorem a_nest_mentions_its_egg_and_its_straw :
    let nest := { (Definition.plain "Nest" (some "Nest") 0 0).record with
      fields := [⟨"egg", "LEgg;", ⟨0x0002⟩, [], none, none, none⟩]
      referencedClasses := ["Nest", "Egg", "Straw"] }
    "Egg" ≠ nest.name ∧ "Straw" ≠ nest.name ∧ Origin.field "egg" .priv ≠ .body ∧
      nest.edges = [⟨.superclass, "Nest", .header⟩, ⟨.fieldType, "Egg", .field "egg" .priv⟩,
        ⟨.mention, "Straw", .body⟩] ∧
      nest.Mentions "Egg" ∧ nest.MentionsAt "Egg" (.field "egg" .priv) ∧
      "Straw" ∈ nest.referencedClasses ∧ ∀ e ∈ nest.edges, e.target = "Straw" → e.origin = .body := by
  intro nest
  have hegg : "Egg" ≠ nest.name := by decide
  have hstraw : "Straw" ≠ nest.name := by decide
  have hfield : Origin.field "egg" .priv ≠ .body := by decide
  have hedges : nest.edges = [⟨.superclass, "Nest", .header⟩,
      ⟨.fieldType, "Egg", .field "egg" .priv⟩, ⟨.mention, "Straw", .body⟩] := by decide
  obtain ⟨hall, hat, _, _, hpool⟩ := edges_are_complete_and_minimal nest
  refine ⟨hegg, hstraw, hfield, hedges, (hall "Egg" hegg).mp ?_, (hat "Egg" _ hegg hfield).mp ?_,
    (hpool "Straw" hstraw).mp ?_⟩
  all_goals simp [hedges]

end ClassRecord

end ClassAtlas
