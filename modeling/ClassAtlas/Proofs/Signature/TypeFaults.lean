-- Where types go wrong. Every reader of types stops at the first fault, as long as what is read
-- behind it does so too and can be completed.
import ClassAtlas.Proofs.Signature.Stops

namespace ClassAtlas.Signature

variable {β : Type}

/-! ## Texts to complete others with -/

theorem isName_x : IsName "x" := by simp [IsName, endsName]

theorem endsName_cons {c : Char} {rest : List Char} (h : endsName c = true) : EndsName (c :: rest) := by
  rintro d ⟨⟩
  exact h

theorem accepts_name {next : String → Parser β} {n : String} {rest : List Char} (hn : IsName n)
    (hrest : EndsName rest) : Accepts (name >>= next) (n.toList ++ rest) ↔ Accepts (next n) rest :=
  accepts_bind_of_takes (takes_name.mpr ⟨hn, rfl, hrest⟩)

theorem live_name {next : String → Parser β}
    (h : ∃ ending, EndsName ending ∧ Accepts (next "x") ending) : Live (name >>= next) := by
  obtain ⟨ending, hends, hending⟩ := h
  exact ⟨_, (accepts_name isName_x hends).mpr hending⟩

/-- A name behind a sign. -/
theorem stopsAtFault_signName {next : String → Parser β} {c : Char} {more : List Char}
    (hlive : ∀ n, ∃ ending, EndsName ending ∧ Accepts (next n) ending)
    (h : ∀ n mid, mid.length < more.length → StopsAtFault (next n) mid) :
    StopsAtFault (advance >>= fun _ => name >>= next) (c :: more) :=
  stopsAtFault_advance (live_name (hlive "x")) (stopsAtFault_name hlive h)

theorem accepts_expect {c : Char} {expected : String} {next : Unit → Parser β} {rest : List Char} :
    Accepts (expect c expected >>= next) (c :: rest) ↔ Accepts (next ()) rest :=
  accepts_bind_of_takes (takes_expect.mpr rfl)

/-! ## Class types -/

theorem guides_typeVariable : Guides typeVariable := by
  intro β next text hlive hnext
  unfold typeVariable
  simp only [bind_assoc, pure_bind]
  have hend : ∀ n, ∃ ending, EndsName ending ∧
      Accepts (expect ';' "';'" >>= fun _ => next n) ending := by
    intro n
    obtain ⟨ending, hending⟩ := hlive n
    exact ⟨';' :: ending, endsName_cons rfl, accepts_expect.mpr hending⟩
  refine stopsAtFault_expect (live_name (hend "x")) fun more hmore => ?_
  refine stopsAtFault_name hend fun n mid hmid => ?_
  exact stopsAtFault_expect (hlive n) fun rest hrest => hnext n rest (by omega)

theorem advances_packageStep : Advances packageStep :=
  advances_of_items (fun _ _ _ _ => takes_packageStep_next) (by simp)

theorem live_package {next : List String × String → Parser β} {read : List String}
    {ending : List Char} (h : Accepts (next (read, "x")) (';' :: ending)) :
    Live (steps packageStep read >>= next) := by
  have hstep : Takes (packageStep read) ("x".toList ++ ';' :: ending) (.inr (read, "x"))
      (';' :: ending) :=
    takes_packageStep_done.mpr ⟨isName_x, rfl, rfl, ';', ending, rfl, rfl, by decide⟩
  exact ⟨_, (accepts_steps advances_packageStep hstep).mpr h⟩

theorem stopsAtFault_package {next : List String × String → Parser β} {text : List Char}
    (hlive : ∀ p, ∃ ending, Accepts (next p) (';' :: ending))
    (hnext : ∀ p mid, mid.length < text.length → StopsAtFault (next p) mid) (read : List String) :
    StopsAtFault (steps packageStep read >>= next) text := by
  refine stopsAtFault_steps advances_packageStep (fun read mid hmid ih => ?_) read
  rw [packageStep, bind_assoc]
  refine stopsAtFault_name (fun n => ?_) fun n back hback => ?_
  · obtain ⟨ending, hending⟩ := hlive (read, n)
    have hbehind : Accepts (goOn packageStep next (.inr (read, n))) (';' :: ending) := hending
    refine ⟨';' :: ending, endsName_cons rfl, (accepts_bind_of_takes ?_).mpr hbehind⟩
    rfl
  · rw [bind_assoc]
    refine stopsAtFault_peek ?_
    rintro c more rfl
    split
    · obtain ⟨ending, hending⟩ := hlive (read ++ [n], "x")
      rw [bind_assoc]
      exact stopsAtFault_advance (live_package hending) (ih _ more (by simp at hback; omega))
    · exact hnext (read, n) _ (by omega)

section

variable {levels : Nat} {reader : Parser (List TypeArgument)}
  (hreader : ArgumentsExact levels reader) (hguides : Guides reader)

include hguides

theorem stopsAtFault_optionalArguments {next : List TypeArgument → Parser β} {text : List Char}
    (hlive : ∀ arguments, Live (next arguments))
    (hnext : ∀ arguments mid, mid.length ≤ text.length → StopsAtFault (next arguments) mid) :
    StopsAtFault (optionalArguments reader >>= next) text := by
  rw [optionalArguments, bind_assoc]
  refine stopsAtFault_peek ?_
  rintro c more rfl
  split
  · exact hguides next _ hlive fun arguments mid hmid => hnext arguments mid (Nat.le_of_lt hmid)
  · exact hnext [] _ (Nat.le_refl _)

omit hguides

include hreader in
theorem advances_innerStep : Advances (innerStep reader) :=
  advances_of_items (fun _ _ _ _ => takes_innerStep_next hreader) (by simp [spellLevel])

include hreader in
theorem accepts_inner {next : ClassType → Parser β} {c : ClassType} {ending : List Char}
    (h : Accepts (next c) ending) : Accepts (steps (innerStep reader) c >>= next) (';' :: ending) :=
  (accepts_steps (advances_innerStep hreader) (takes_innerStep_done.mpr ⟨rfl, rfl⟩)).mpr h

include hreader hguides

theorem stopsAtFault_inner {next : ClassType → Parser β} {text : List Char}
    (hlive : ∀ c, Live (next c))
    (hnext : ∀ c mid, mid.length < text.length → StopsAtFault (next c) mid) (c : ClassType) :
    StopsAtFault (steps (innerStep reader) c >>= next) text := by
  refine stopsAtFault_steps (advances_innerStep hreader) (fun enclosing mid hmid ih => ?_) c
  have hmore : ∀ c, ∃ ending, Accepts (steps (innerStep reader) c >>= next) (';' :: ending) := by
    intro c
    obtain ⟨ending, hending⟩ := hlive c
    exact ⟨ending, accepts_inner hreader hending⟩
  rw [innerStep, bind_assoc]
  refine stopsAtFault_peek ?_
  rintro d more rfl
  simp only [List.length_cons] at hmid ih
  split
  · -- Behind the dot stands a name, which the end of the class type may follow.
    simp only [bind_assoc]
    refine stopsAtFault_signName (fun n => ?_) fun n back hback => ?_
    · obtain ⟨ending, hending⟩ := hmore (.inner enclosing n [])
      have hbehind : Accepts (goOn (innerStep reader) next (.inl (.inner enclosing n [])))
          (';' :: ending) := hending
      rw [← bind_assoc]
      refine ⟨';' :: ending, endsName_cons rfl, (accepts_bind_of_takes ?_).mpr hbehind⟩
      rfl
    · refine stopsAtFault_peek ?_
      rintro e others rfl
      split
      · exact stopsAtFault_unexpected
      · rw [bind_assoc]
        refine stopsAtFault_optionalArguments hguides (fun arguments => ?_)
          fun arguments back' hback' => ih _ back' (by omega)
        obtain ⟨ending, hending⟩ := hmore (.inner enclosing n arguments)
        exact ⟨_, hending⟩
  · rw [bind_assoc]
    exact stopsAtFault_advance (hlive enclosing) (hnext enclosing more (by omega))
  · exact stopsAtFault_unexpected

theorem guides_classTypeWith : Guides (classTypeWith reader) := by
  intro β next text hlive hnext
  unfold classTypeWith
  simp only [bind_assoc]
  have hend : ∀ p : List String × String, ∃ ending, Accepts (optionalArguments reader >>=
      fun outer => steps (innerStep reader) (.topLevel p.1 p.2 outer) >>= next) (';' :: ending) := by
    intro p
    obtain ⟨ending, hending⟩ := hlive (.topLevel p.1 p.2 [])
    have hnone : Takes (optionalArguments reader) (';' :: ending) [] (';' :: ending) := rfl
    exact ⟨ending, (accepts_bind_of_takes hnone).mpr (accepts_inner hreader hending)⟩
  refine stopsAtFault_expect ?_ fun more hmore => stopsAtFault_package hend (fun p mid hmid => ?_) []
  · obtain ⟨ending, hending⟩ := hend ([], "x")
    exact live_package hending
  · refine stopsAtFault_optionalArguments hguides (fun outer => ?_) fun outer back hback => ?_
    · obtain ⟨ending, hending⟩ := hlive (.topLevel p.1 p.2 outer)
      exact ⟨_, accepts_inner hreader hending⟩
    · exact stopsAtFault_inner hreader hguides hlive (fun c rest hrest => hnext c rest (by omega)) _

/-! ## Reference types -/

theorem guides_plainReference : Guides (plainReference reader) := by
  intro β next text hlive hnext
  rw [plainReference, bind_assoc]
  refine stopsAtFault_peek ?_
  rintro c more rfl
  split
  · exact (guides_classTypeWith hreader hguides).bind_pure _ next _ hlive hnext
  · exact guides_typeVariable.bind_pure _ next _ hlive hnext
  · exact stopsAtFault_unexpected

omit hreader hguides

theorem guides_baseOr {other : Parser ReferenceType} (hother : Guides other) :
    Guides (baseOr other) := by
  intro β next text hlive hnext
  rw [baseOr, bind_assoc]
  refine stopsAtFault_peek ?_
  rintro c more rfl
  split
  · rw [bind_assoc]
    exact stopsAtFault_advance (hlive _) (hnext _ more (Nat.lt_succ_self _))
  · exact hother.bind_pure _ next _ hlive hnext

/-- What follows brackets must not begin with one more. -/
theorem stopsAtFault_brackets {next : Nat → Parser β} {text : List Char}
    (hlive : ∀ n, ∃ ending, ending.head? ≠ some '[' ∧ Accepts (next n) ending)
    (hnext : ∀ n mid, mid.length ≤ text.length → StopsAtFault (next n) mid) :
    StopsAtFault (brackets >>= next) text := by
  obtain ⟨n, mid, hbrackets⟩ : ∃ n mid, Takes brackets text n mid := ⟨_, _, rfl⟩
  obtain ⟨rfl, hmid⟩ := takes_brackets.mp hbrackets
  have htakes : ∀ other : List Char, other.head? ≠ some '[' →
      Takes brackets (List.replicate n '[' ++ other) n other :=
    fun other hother => takes_brackets.mpr ⟨rfl, hother⟩
  have hshort : mid.length ≤ (List.replicate n '[' ++ mid).length := by
    rw [List.length_append]
    omega
  refine .behind (List.replicate n '[') (bind_of_takes hbrackets) ?_ ?_ (hnext n mid hshort)
  · exact fun other hhead => accepts_bind_of_takes (htakes other (hhead ▸ hmid))
  · intro _
    obtain ⟨ending, hhead, hending⟩ := hlive n
    exact ⟨ending, (accepts_bind_of_takes (htakes ending hhead)).mpr hending⟩

include hreader hguides

theorem guides_referenceWith : Guides (referenceWith reader) := by
  intro β next text hlive hnext
  rw [referenceWith, bind_assoc]
  refine stopsAtFault_brackets (fun n => ?_) fun n mid hmid => ?_
  · -- A type variable may stand behind any number of brackets.
    have hx : ∀ rest, 'T' :: "x".toList ++ [';'] ++ rest =
        (ReferenceType.typeVariable "x").spell ++ rest := fun _ => rfl
    cases n with
    | zero =>
      obtain ⟨ending, hending⟩ := hlive (.typeVariable "x")
      have htakes := (takes_plainReference hreader (r := .typeVariable "x")).mpr
        ⟨trivial, isName_x, hx ending⟩
      exact ⟨_, by simp, (accepts_bind_of_takes htakes).mpr hending⟩
    | succ n =>
      obtain ⟨ending, hending⟩ := hlive (.array (arrayOf n (.reference (.typeVariable "x"))))
      have htakes := (takes_plainType hreader (t := .reference (.typeVariable "x"))).mpr
        ⟨trivial, isName_x, hx ending⟩
      refine ⟨'T' :: "x".toList ++ [';'] ++ ending, by simp, ?_⟩
      simp only [bind_assoc, pure_bind]
      exact (accepts_bind_of_takes htakes).mpr hending
  · have hshorter : ∀ r back, back.length < mid.length → StopsAtFault (next r) back :=
      fun r back hback => hnext r back (by omega)
    cases n with
    | zero => exact guides_plainReference hreader hguides next mid hlive hshorter
    | succ n =>
      exact (guides_baseOr (guides_plainReference hreader hguides)).bind_pure _ next mid hlive hshorter

end

/-! ## Type arguments -/

section

variable {levels : Nat} {reference : Parser ReferenceType}
  (hreads : Reads reference (ReferenceType.WellFormed levels) ReferenceType.spell)

include hreads

theorem advances_argumentStep : Advances (argumentStep reference) :=
  advances_of_items (fun _ _ _ _ => takes_argumentStep_next hreads) spell_ne_nil

/-- A list of arguments can be closed behind a wildcard. -/
theorem live_argumentSteps {next : List TypeArgument → Parser β}
    (hlive : ∀ arguments, Live (next arguments)) (read : List TypeArgument) :
    Live (steps (argumentStep reference) read >>= next) := by
  obtain ⟨ending, hending⟩ := hlive (read ++ [.any])
  have hany : Takes (argumentStep reference read) ('*' :: '>' :: ending)
      (.inl (read ++ [.any])) ('>' :: ending) :=
    (takes_argumentStep_next hreads).mpr ⟨.any, trivial, rfl, rfl⟩
  have hclose : Takes (argumentStep reference (read ++ [.any])) ('>' :: ending)
      (.inr (read ++ [.any])) ending :=
    takes_argumentStep_done.mpr ⟨by simp, rfl, rfl⟩
  have hless := advances_argumentStep hreads
  exact ⟨_, (accepts_steps hless hany).mpr ((accepts_steps hless hclose).mpr hending)⟩

theorem stopsAtFault_argumentSteps (hguides : Guides reference)
    {next : List TypeArgument → Parser β} {text : List Char}
    (hlive : ∀ arguments, Live (next arguments))
    (hnext : ∀ arguments mid, mid.length < text.length → StopsAtFault (next arguments) mid)
    (read : List TypeArgument) : StopsAtFault (steps (argumentStep reference) read >>= next) text := by
  refine stopsAtFault_steps (advances_argumentStep hreads) (fun read mid hmid ih => ?_) read
  have hmore := live_argumentSteps hreads hlive
  rw [argumentStep, bind_assoc]
  refine stopsAtFault_peek ?_
  rintro c more rfl
  simp only [List.length_cons] at hmid ih
  -- One more argument that is read behind its sign, or without one.
  have hsigned : ∀ bound, StopsAtFault
      (advance >>= fun _ => reference >>= fun r =>
        steps (argumentStep reference) (read ++ [.of bound r]) >>= next) (c :: more) := by
    intro bound
    have hput : Live (reference >>= fun r =>
        steps (argumentStep reference) (read ++ [.of bound r]) >>= next) :=
      Live.bind (ReferenceType.typeVariable "x").spell
        (fun rest => (hreads _ (.typeVariable "x") _).mpr ⟨isName_x, rfl⟩) (hmore _)
    refine stopsAtFault_advance hput (hguides _ _ (fun r => hmore _) fun r back hback => ?_)
    exact ih _ back (by omega)
  split
  · rw [bind_assoc]
    exact stopsAtFault_advance (hlive read) (hnext read more (by omega))
  split
  · rw [bind_assoc]
    exact stopsAtFault_advance (hmore _) (ih _ more (by omega))
  split
  · simp only [bind_assoc, pure_bind]
    exact hsigned .upper
  split
  · simp only [bind_assoc, pure_bind]
    exact hsigned .lower
  · simp only [bind_assoc, pure_bind]
    exact hguides _ _ (fun r => hmore _) fun r back hback => ih _ back hback

end

theorem guides_arguments (levels : Nat) : Guides (arguments levels) := by
  induction levels with
  | zero =>
    intro β next text hlive hnext
    rw [arguments, bind_assoc, expect_bind]
    refine stopsAtFault_peek ?_
    rintro c more rfl
    split
    · -- The limit is the one cause that is left out.
      rintro stuck ⟨⟩ hcause
      exact absurd rfl hcause
    · exact stopsAtFault_unexpected
  | succ levels ih =>
    intro β next text hlive hnext
    have hreads : Reads (referenceWith (arguments levels)) (ReferenceType.WellFormed levels)
        ReferenceType.spell := reads_referenceWith (arguments_exact levels)
    have hguides : Guides (referenceWith (arguments levels)) :=
      guides_referenceWith (arguments_exact levels) ih
    rw [arguments, bind_assoc]
    refine stopsAtFault_expect (live_argumentSteps hreads hlive []) fun more hmore => ?_
    exact stopsAtFault_argumentSteps hreads hguides hlive
      (fun read mid hmid => hnext read mid (by omega)) []

theorem guides_reference : Guides reference :=
  guides_referenceWith (arguments_exact maxNesting) (guides_arguments maxNesting)

theorem guides_classType : Guides classType :=
  guides_classTypeWith (arguments_exact maxNesting) (guides_arguments maxNesting)

theorem guides_valueType : Guides valueType := guides_baseOr guides_reference

theorem live_reference {next : ReferenceType → Parser β} (hlive : ∀ r, Live (next r)) :
    Live (reference >>= next) :=
  Live.bind (ReferenceType.typeVariable "x").spell
    (fun _ => (reads_reference _ (.typeVariable "x") _).mpr ⟨isName_x, rfl⟩) (hlive _)

theorem live_valueType {next : ValueType → Parser β} (hlive : ∀ t, Live (next t)) :
    Live (valueType >>= next) :=
  Live.bind (ValueType.base .int).spell
    (fun _ => (reads_valueType _ (.base .int) _).mpr ⟨trivial, rfl⟩) (hlive _)

/-- The class `x` of no package. -/
def classX : ClassType := .topLevel [] "x" []

theorem wellFormed_classX : classX.WellFormed maxNesting := ⟨by simp, isName_x, trivial⟩

theorem live_classType {next : ClassType → Parser β} (hlive : ∀ c, Live (next c)) :
    Live (classType >>= next) :=
  Live.bind classX.spell
    (fun _ => (reads_classType _ classX _).mpr ⟨wellFormed_classX, rfl⟩) (hlive _)

end ClassAtlas.Signature
