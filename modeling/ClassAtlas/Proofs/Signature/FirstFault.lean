-- Where signatures go wrong. A text that is no signature is refused at its first fault: what stands
-- before it begins a signature, and with the character at it nothing does.
import ClassAtlas.Proofs.Signature.Declarations
import ClassAtlas.Proofs.Signature.TypeFaults

namespace ClassAtlas.Signature

variable {β : Type}

/-! ## Type parameters -/

/-- What can stand behind the last type parameter. -/
def Closes (next : Parser β) : Prop := ∃ ending, Accepts next ('>' :: ending)

theorem Closes.live {next : Parser β} (h : Closes next) : Live next :=
  h.imp' ('>' :: ·) fun _ hending => hending

theorem advances_boundStep : Advances boundStep :=
  advances_of_items (fun _ _ _ _ => takes_boundStep_next) (by simp)

theorem closes_bounds {next : List ReferenceType → Parser β} {read : List ReferenceType}
    (h : Closes (next read)) : Closes (steps boundStep read >>= next) := by
  obtain ⟨ending, hending⟩ := h
  have hdone : Takes (boundStep read) ('>' :: ending) (.inr read) ('>' :: ending) := rfl
  exact ⟨ending, (accepts_steps advances_boundStep hdone).mpr hending⟩

theorem stopsAtFault_bounds {next : List ReferenceType → Parser β} {text : List Char}
    (hlive : ∀ bounds, Closes (next bounds))
    (hnext : ∀ bounds mid, mid.length ≤ text.length → StopsAtFault (next bounds) mid)
    (read : List ReferenceType) : StopsAtFault (steps boundStep read >>= next) text := by
  refine stopsAtFault_steps advances_boundStep (fun read mid hmid ih => ?_) read
  have hmore : ∀ r, Live (steps boundStep (read ++ [r]) >>= next) :=
    fun r => (closes_bounds (hlive _)).live
  rw [boundStep, bind_assoc]
  refine stopsAtFault_peek ?_
  rintro c more rfl
  simp only [List.length_cons] at hmid ih
  split
  · simp only [bind_assoc, pure_bind]
    refine stopsAtFault_advance (live_reference hmore) ?_
    exact guides_reference _ _ hmore fun r back hback => ih _ back (by omega)
  · exact hnext read _ (by simpa using hmid)

theorem closes_classBound {next : Option ReferenceType → Parser β} (h : Closes (next none)) :
    Closes (classBound >>= next) := by
  obtain ⟨ending, hending⟩ := h
  have hnone : Takes classBound ('>' :: ending) none ('>' :: ending) := rfl
  exact ⟨ending, (accepts_bind_of_takes hnone).mpr hending⟩

theorem stopsAtFault_classBound {next : Option ReferenceType → Parser β} {text : List Char}
    (hlive : ∀ bound, Live (next bound))
    (hnext : ∀ bound mid, mid.length ≤ text.length → StopsAtFault (next bound) mid) :
    StopsAtFault (classBound >>= next) text := by
  rw [classBound, bind_assoc]
  refine stopsAtFault_peek ?_
  rintro c more rfl
  split
  · simp only [bind_assoc, pure_bind]
    exact guides_reference _ _ (fun r => hlive _) fun r back hback =>
      hnext _ back (Nat.le_of_lt hback)
  · exact hnext none _ (Nat.le_refl _)

/-- A type parameter does not tell where it ends, but its name makes what follows it shorter. -/
theorem stopsAtFault_typeParameter {next : TypeParameter → Parser β} {text : List Char}
    (hlive : ∀ p, Closes (next p))
    (hnext : ∀ p mid, mid.length < text.length → StopsAtFault (next p) mid) :
    StopsAtFault (typeParameter >>= next) text := by
  unfold typeParameter
  simp only [bind_assoc, pure_bind]
  have hbounds : ∀ n first, Closes
      (steps boundStep [] >>= fun others => next ⟨n, first, others⟩) :=
    fun n first => closes_bounds (hlive _)
  have hbehind : ∀ n, Closes (classBound >>= fun first =>
      steps boundStep [] >>= fun others => next ⟨n, first, others⟩) :=
    fun n => closes_classBound (hbounds n none)
  refine stopsAtFault_name (fun n => ?_) fun n mid hmid => ?_
  · obtain ⟨ending, hending⟩ := hbehind n
    exact ⟨':' :: '>' :: ending, endsName_cons rfl, accepts_expect.mpr hending⟩
  refine stopsAtFault_expect (hbehind n).live fun more hmore => ?_
  refine stopsAtFault_classBound (fun first => (hbounds n first).live) fun first back hback => ?_
  exact stopsAtFault_bounds (fun others => hlive _)
    (fun others rest hrest => hnext _ rest (by omega)) []

theorem advances_typeParameterStep : Advances typeParameterStep :=
  advances_of_items (fun _ _ _ _ => takes_typeParameterStep_next) (by simp [TypeParameter.spell])

theorem live_typeParameterSteps {next : List TypeParameter → Parser β}
    (hlive : ∀ parameters, Live (next parameters)) (read : List TypeParameter) :
    Live (steps typeParameterStep read >>= next) := by
  obtain ⟨ending, hending⟩ := hlive (read ++ [⟨"x", none, []⟩])
  have hdone : Takes (typeParameterStep read) (TypeParameter.spell ⟨"x", none, []⟩ ++ '>' :: ending)
      (.inr (read ++ [⟨"x", none, []⟩])) ending :=
    takes_typeParameterStep_done.mpr
      ⟨⟨"x", none, []⟩, ⟨isName_x, nofun, by simp⟩, rfl, rfl⟩
  exact ⟨_, (accepts_steps advances_typeParameterStep hdone).mpr hending⟩

theorem stopsAtFault_typeParameterSteps {next : List TypeParameter → Parser β} {text : List Char}
    (hlive : ∀ parameters, Live (next parameters))
    (hnext : ∀ parameters mid, mid.length < text.length → StopsAtFault (next parameters) mid)
    (read : List TypeParameter) : StopsAtFault (steps typeParameterStep read >>= next) text := by
  refine stopsAtFault_steps advances_typeParameterStep (fun read mid hmid ih => ?_) read
  rw [typeParameterStep, bind_assoc]
  refine stopsAtFault_typeParameter (fun p => ?_) fun p back hback => ?_
  · obtain ⟨ending, hending⟩ := hlive (read ++ [p])
    have hbehind : Accepts (goOn typeParameterStep next (.inr (read ++ [p]))) ending := hending
    refine ⟨ending, (accepts_bind_of_takes ?_).mpr hbehind⟩
    rfl
  · rw [bind_assoc]
    refine stopsAtFault_peek ?_
    rintro c more rfl
    split
    · rw [bind_assoc]
      exact stopsAtFault_advance (hlive _) (hnext _ more (by simp at hback; omega))
    · exact ih _ _ hback

theorem stopsAtFault_typeParameters {next : List TypeParameter → Parser β} {text : List Char}
    (hlive : ∀ parameters, Live (next parameters))
    (hnext : ∀ parameters mid, mid.length ≤ text.length → StopsAtFault (next parameters) mid) :
    StopsAtFault (typeParameters >>= next) text := by
  by_cases hopen : ∃ more, text = '<' :: more
  · obtain ⟨more, rfl⟩ := hopen
    have hrun : ∀ other, (typeParameters >>= next) ('<' :: other) =
        (steps typeParameterStep [] >>= next) other := fun _ => rfl
    refine .behind ['<'] (hrun more) (fun other _ => ?_) (fun _ => ?_)
      (stopsAtFault_typeParameterSteps hlive
        (fun parameters mid hmid => hnext parameters mid (Nat.le_succ_of_le (Nat.le_of_lt hmid))) [])
    · unfold Accepts Takes
      rw [List.singleton_append, hrun]
    · obtain ⟨ending, hending⟩ := live_typeParameterSteps hlive []
      refine ⟨ending, ?_⟩
      unfold Accepts Takes at hending ⊢
      rwa [List.singleton_append, hrun]
  · have hnone : ∀ other : List Char, other.head? ≠ some '<' →
        Takes typeParameters other [] other := by
      intro other hother
      exact takes_typeParameters.mpr ⟨by simp, trivial, rfl, fun _ => hother⟩
    have hhead : text.head? ≠ some '<' :=
      fun h => hopen (List.head?_eq_some_iff.mp h)
    refine .behind [] (bind_of_takes (hnone text hhead)) (fun other hother => ?_)
      (absurd rfl) (hnext [] text (Nat.le_refl _))
    exact accepts_bind_of_takes (hnone other (hother ▸ hhead))

/-! ## Lists that end with the text -/

theorem stopsAtFault_atEnd {next : Bool → Parser β} {text : List Char}
    (h : StopsAtFault (next text.isEmpty) text) : StopsAtFault (atEnd >>= next) text := by
  have hend : ∀ other : List Char, Takes atEnd other other.isEmpty other := fun _ => rfl
  refine .behind [] (bind_of_takes (hend text)) (fun other hhead => ?_) (absurd rfl) h
  have hempty : other.isEmpty = text.isEmpty := by
    cases other <;> cases text <;> simp_all
  rw [← hempty]
  exact accepts_bind_of_takes (hend other)

/-- The whole text is read when the list is. -/
def Ends (next : Parser β) : Prop := Accepts next []

section

variable {α : Type} {item : Parser α} {fits : α → Prop} {spell : α → List Char}
  (hreads : Reads item fits spell) (hspell : ∀ a, spell a ≠ [])

include hreads hspell

theorem advances_stepToEnd : Advances (stepToEnd item) :=
  advances_of_items (fun _ _ _ _ => takes_stepToEnd_next hreads hspell) hspell

theorem ends_toEnd {next : List α → Parser β} {read : List α} (h : Ends (next read)) :
    Ends (steps (stepToEnd item) read >>= next) :=
  (accepts_steps (advances_stepToEnd hreads hspell)
    (takes_stepToEnd_done.mpr ⟨rfl, rfl, rfl⟩)).mpr h

theorem stopsAtFault_toEnd (hguides : Guides item) {next : List α → Parser β} {text : List Char}
    (hends : ∀ items, Ends (next items)) (read : List α) :
    StopsAtFault (steps (stepToEnd item) read >>= next) text := by
  refine stopsAtFault_steps (advances_stepToEnd hreads hspell) (fun read mid hmid ih => ?_) read
  rw [stepToEnd, bind_assoc]
  refine stopsAtFault_atEnd ?_
  split
  · next hempty =>
    obtain rfl := List.isEmpty_iff.mp hempty
    obtain ⟨b, hb⟩ := hends read
    exact stopsAtFault_of_takes hb
  · simp only [bind_assoc, pure_bind]
    exact hguides _ _ (fun a => ⟨[], ends_toEnd hreads hspell (hends _)⟩)
      fun a back hback => ih _ back hback

end

/-! ## Methods -/

theorem advances_parameterStep : Advances parameterStep := by
  refine advances_of_items (fun _ _ _ _ => takes_parameterStep_next) fun t => ?_
  obtain ⟨c, more, hhead, _⟩ := head_valueType t
  simp [hhead]

theorem live_parameters {next : List ValueType → Parser β} {read : List ValueType}
    (h : Live (next read)) : Live (steps parameterStep read >>= next) := by
  obtain ⟨ending, hending⟩ := h
  have hclose : Takes (parameterStep read) (')' :: ending) (.inr read) ending := rfl
  exact ⟨_, (accepts_steps advances_parameterStep hclose).mpr hending⟩

theorem stopsAtFault_parameters {next : List ValueType → Parser β} {text : List Char}
    (hlive : ∀ parameters, Live (next parameters))
    (hnext : ∀ parameters mid, mid.length < text.length → StopsAtFault (next parameters) mid)
    (read : List ValueType) : StopsAtFault (steps parameterStep read >>= next) text := by
  refine stopsAtFault_steps advances_parameterStep (fun read mid hmid ih => ?_) read
  rw [parameterStep, bind_assoc]
  refine stopsAtFault_peek ?_
  rintro c more rfl
  simp only [List.length_cons] at hmid ih
  split
  · rw [bind_assoc]
    exact stopsAtFault_advance (hlive read) (hnext read more (by omega))
  · simp only [bind_assoc, pure_bind]
    exact guides_valueType _ _ (fun t => live_parameters (hlive _)) fun t back hback =>
      ih _ back (by simpa using hback)

theorem live_result {next : Option ValueType → Parser β} (h : Live (next none)) :
    Live (result >>= next) :=
  Live.bind ['V'] (fun _ => rfl) h

theorem guides_result : Guides result := by
  intro β next text hlive hnext
  rw [result, bind_assoc]
  refine stopsAtFault_peek ?_
  rintro c more rfl
  split
  · rw [bind_assoc]
    exact stopsAtFault_advance (hlive none) (hnext none more (Nat.lt_succ_self _))
  · exact guides_valueType.bind_pure _ next _ hlive hnext

theorem guides_thrownType : Guides thrownType := by
  intro β next text hlive hnext
  obtain ⟨ending, hending⟩ := hlive (.typeVariable "x")
  have hthrown : Takes thrownType ('^' :: (ReferenceType.typeVariable "x").spell ++ ending)
      (ThrownType.typeVariable "x") ending := rfl
  have haccepts := (accepts_bind_of_takes hthrown).mpr hending
  rw [thrownType, bind_assoc] at haccepts ⊢
  refine stopsAtFault_expect ⟨_, accepts_expect.mp haccepts⟩ fun more hmore => ?_
  rw [bind_assoc]
  refine stopsAtFault_peek ?_
  rintro c others rfl
  have hshorter : ∀ t back, back.length < (c :: others).length → StopsAtFault (next t) back :=
    fun t back hback => hnext t back (by omega)
  split
  · exact guides_classType.bind_pure _ next _ hlive hshorter
  · exact guides_typeVariable.bind_pure _ next _ hlive hshorter
  · exact stopsAtFault_unexpected

/-! ## Whole texts -/

/-- What is left to do when a signature is read: the text must be at its end. -/
def finish {α : Type} (a : α) : Parser α := do
  if ← atEnd then return a else stop .trailing

section

variable {α : Type}

theorem ends_finish (a : α) : Ends (finish a) := ⟨a, rfl⟩

theorem live_finish (a : α) : Live (finish a) := ⟨[], ends_finish a⟩

theorem stopsAtFault_finish (a : α) (text : List Char) : StopsAtFault (finish a) text := by
  cases text with
  | nil => exact stopsAtFault_of_takes (a := a) rfl
  | cons c more =>
    refine stopsAtFault_here .trailing rfl ⟨nofun, nofun⟩ nofun ?_
    rintro d _ others ⟨b, ⟨⟩⟩

theorem stopsAtFault_valueType (text : List Char) : StopsAtFault (valueType >>= finish) text :=
  guides_valueType finish text live_finish fun t mid _ => stopsAtFault_finish t mid

theorem stopsAtFault_classSignature (text : List Char) :
    StopsAtFault (classSignature >>= finish) text := by
  unfold classSignature
  simp only [bind_assoc, pure_bind]
  have hspell : ∀ c : ClassType, c.spell ≠ [] := by
    intro c
    obtain ⟨more, hhead⟩ := head_classType c
    simp [hhead]
  have hinterfaces : ∀ parameters superclass, Live (steps (stepToEnd classType) [] >>=
      fun interfaces => finish (⟨parameters, superclass, interfaces⟩ : ClassSignature)) :=
    fun parameters superclass => ⟨[], ends_toEnd reads_classType hspell (ends_finish _)⟩
  refine stopsAtFault_typeParameters (fun parameters => live_classType (hinterfaces parameters))
    fun parameters mid hmid => ?_
  refine guides_classType _ _ (hinterfaces parameters) fun superclass back hback => ?_
  exact stopsAtFault_toEnd reads_classType hspell guides_classType (fun _ => ends_finish _) []

theorem stopsAtFault_methodSignature (text : List Char) :
    StopsAtFault (methodSignature >>= finish) text := by
  unfold methodSignature
  simp only [bind_assoc, pure_bind]
  have hthrows : ∀ typeParams parameters returned, Live (steps (stepToEnd thrownType) [] >>=
      fun throws => finish (⟨typeParams, parameters, returned, throws⟩ : MethodSignature)) :=
    fun _ _ _ => ⟨[], ends_toEnd reads_thrownType (fun _ => List.cons_ne_nil _ _) (ends_finish _)⟩
  have hresult : ∀ typeParams parameters, Live (result >>= fun returned =>
      steps (stepToEnd thrownType) [] >>= fun throws =>
        finish (⟨typeParams, parameters, returned, throws⟩ : MethodSignature)) :=
    fun typeParams parameters => live_result (hthrows typeParams parameters none)
  have hparameters : ∀ typeParams, Live (steps parameterStep [] >>= fun parameters =>
      result >>= fun returned => steps (stepToEnd thrownType) [] >>= fun throws =>
        finish (⟨typeParams, parameters, returned, throws⟩ : MethodSignature)) :=
    fun typeParams => live_parameters (hresult typeParams [])
  refine stopsAtFault_typeParameters (fun typeParams => ?_) fun typeParams mid hmid => ?_
  · obtain ⟨ending, hending⟩ := hparameters typeParams
    exact ⟨'(' :: ending, accepts_expect.mpr hending⟩
  refine stopsAtFault_expect (hparameters typeParams) fun more hmore => ?_
  refine stopsAtFault_parameters (hresult typeParams) (fun parameters back hback => ?_) []
  refine guides_result _ _ (hthrows typeParams parameters) fun returned rest hrest => ?_
  exact stopsAtFault_toEnd reads_thrownType (fun _ => List.cons_ne_nil _ _) guides_thrownType
    (fun _ => ends_finish _) []

theorem accepts_finish_iff {reader : Parser α} {text : List Char} :
    Accepts (reader >>= finish) text ↔ ∃ a, parse reader (String.ofList text) = .ok a := by
  simp only [parse_eq_ok, String.toList_ofList]
  constructor
  · rintro ⟨a, h⟩
    obtain ⟨b, mid, hb, hfinish⟩ := takes_bind.mp h
    cases mid with
    | nil => exact ⟨b, hb⟩
    | cons c more => cases hfinish
  · rintro ⟨a, h⟩
    exact ⟨a, takes_bind.mpr ⟨a, [], h, rfl⟩⟩

theorem parse_eq_error {reader : Parser α} {text : String} {fault : SignatureFault}
    (h : parse reader text = .error fault) :
    ∃ stuck, (reader >>= finish) text.toList = .error stuck ∧ fault = stuck.toFault text.toList := by
  unfold parse at h
  cases hread : reader text.toList with
  | error stuck =>
    rw [hread] at h
    cases h
    exact ⟨stuck, bind_of_stuck hread, rfl⟩
  | ok answer =>
    obtain ⟨a, rest⟩ := answer
    rw [hread] at h
    cases rest with
    | nil => cases h
    | cons c more =>
      cases h
      exact ⟨⟨.trailing, c :: more⟩, bind_of_takes hread, rfl⟩

/-! ## Faults of texts -/

/-- Some text that is accepted begins with `front`. -/
def Begins (accept : String → Except SignatureFault α) (front : String) : Prop :=
  ∃ ending a, accept (front ++ ending) = .ok a

/-- The text goes wrong at the character `found`, and `offset` bytes stand before it: an accepted
text may begin with these, but none goes on with the character. -/
def GoesWrongAt (accept : String → Except SignatureFault α) (text : String) (found : Char)
    (offset : Nat) : Prop :=
  ∃ front back : String, text = front.push found ++ back ∧ offset = front.utf8ByteSize ∧
    Begins accept front ∧ ¬ Begins accept (front.push found)

/-- The fault of a text stands where the text goes wrong, or at its end if the text could go on.
Where arguments nest too deep, nothing is said. -/
def TellsFirstFault (accept : String → Except SignatureFault α) (text : String) :
    SignatureFault → Prop
  | .unexpectedEnd offset => offset = text.utf8ByteSize ∧
      ∃ more, more ≠ "" ∧ ∃ a, accept (text ++ more) = .ok a
  | .unexpectedChar found offset _ => GoesWrongAt accept text found offset
  | .trailing offset => ∃ found, GoesWrongAt accept text found offset
  | .emptyName offset => ∃ found, GoesWrongAt accept text found offset
  | .tooDeep _ _ => True

theorem length_append (front back : List Char) :
    Utf8.length (front ++ back) = Utf8.length front + Utf8.length back := by
  induction front with
  | nil => simp [Utf8.length]
  | cons c front ih =>
    simp only [Utf8.length, List.cons_append, List.map_cons, List.foldr_cons] at ih ⊢
    omega

theorem utf8ByteSize_eq (text : String) : text.utf8ByteSize = Utf8.length text.toList := by
  have hlist : ∀ list : List Char, (String.ofList list).utf8ByteSize = Utf8.length list := by
    intro list
    induction list with
    | nil => rfl
    | cons c rest ih =>
      have hhead : (String.ofList [c]).utf8ByteSize = Utf8.length [c] := by
        simp [Utf8.length]
      rw [← List.singleton_append, String.ofList_append, String.utf8ByteSize_append, ih, hhead,
        length_append]
  simpa using hlist text.toList

theorem begins_ofList_iff {reader : Parser α} {front : List Char} :
    Begins (parse reader) (String.ofList front) ↔
      ∃ ending, Accepts (reader >>= finish) (front ++ ending) := by
  constructor
  · rintro ⟨ending, a, h⟩
    refine ⟨ending.toList, accepts_finish_iff.mpr ⟨a, ?_⟩⟩
    rwa [String.ofList_append, String.ofList_toList]
  · rintro ⟨ending, h⟩
    obtain ⟨a, ha⟩ := accepts_finish_iff.mp h
    exact ⟨String.ofList ending, a, by rwa [← String.ofList_append]⟩

theorem begins_front {reader : Parser α} (hlive : Live (reader >>= finish)) {front : List Char}
    {stuck : Stuck} (h : FirstFault (reader >>= finish) front stuck) :
    Begins (parse reader) (String.ofList front) := by
  refine begins_ofList_iff.mpr ?_
  by_cases hfront : front = []
  · subst hfront
    exact hlive
  · exact h.completed hfront

theorem tellsFirstFault_of_stops {reader : Parser α} (hlive : Live (reader >>= finish))
    (hstops : ∀ text, StopsAtFault (reader >>= finish) text) {text : String}
    {fault : SignatureFault} (h : parse reader text = .error fault) :
    TellsFirstFault (parse reader) text fault := by
  obtain ⟨⟨cause, rest⟩, hstuck, rfl⟩ := parse_eq_error h
  by_cases hdeep : cause = .tooDeep
  · subst hdeep
    trivial
  obtain ⟨front, hcut, hfault⟩ := hstops text.toList _ hstuck hdeep
  have htext : text.toList = front ++ rest := hcut
  have hbegins := begins_front hlive hfault
  have hoffset : Utf8.length text.toList - Utf8.length rest = Utf8.length front := by
    rw [htext, length_append]
    omega
  cases rest with
  | nil =>
    obtain rfl : cause = .ended := hfault.ended.mpr rfl
    obtain rfl : String.ofList front = text := by rw [← String.ofList_toList (s := text), htext]; simp
    obtain ⟨more, a, ha⟩ := hbegins
    refine ⟨(utf8ByteSize_eq _).symm, more, ?_, a, ha⟩
    rintro rfl
    rw [String.append_empty, h] at ha
    cases ha
  | cons c more =>
    have hwrong : GoesWrongAt (parse reader) text c
        (Utf8.length text.toList - Utf8.length (c :: more)) := by
      refine ⟨String.ofList front, String.ofList more, ?_, ?_, hbegins, ?_⟩
      · apply String.toList_inj.mp
        simp [htext]
      · rw [hoffset, utf8ByteSize_eq, String.toList_ofList]
      · rw [← String.ofList_toList (s := (String.ofList front).push c), begins_ofList_iff]
        rintro ⟨ending, haccepts⟩
        refine hfault.hopeless c rfl ending ?_
        simpa using haccepts
    cases cause with
    | ended => cases hfault.ended.mp rfl
    | unexpected found expected =>
      obtain rfl : c = found := Option.some.inj (hfault.found found expected rfl)
      exact hwrong
    | trailing => exact ⟨c, hwrong⟩
    | emptyName => exact ⟨c, hwrong⟩
    | tooDeep => exact absurd rfl hdeep

end

/-- What is wrong with a text that is no signature is told at the first place where it is wrong:
what stands before it can be completed to a signature, and with one character more it cannot. A
text that could go on is told to end too early. -/
theorem signatures_go_wrong_where_it_is_told :
    (∀ text fault, ClassSignature.parse text = .error fault →
      TellsFirstFault ClassSignature.parse text fault) ∧
    (∀ text fault, MethodSignature.parse text = .error fault →
      TellsFirstFault MethodSignature.parse text fault) ∧
    (∀ text fault, ValueType.parse text = .error fault →
      TellsFirstFault ValueType.parse text fault) := by
  refine ⟨fun text fault h => ?_, fun text fault h => ?_, fun text fault h => ?_⟩
  · have hlive : Live (classSignature >>= finish) :=
      ⟨classX.spell, accepts_finish_iff.mpr ⟨⟨[], classX, []⟩, by rfl⟩⟩
    exact tellsFirstFault_of_stops hlive stopsAtFault_classSignature h
  · have hlive : Live (methodSignature >>= finish) :=
      ⟨"()V".toList, accepts_finish_iff.mpr ⟨⟨[], [], none, []⟩, by rfl⟩⟩
    exact tellsFirstFault_of_stops hlive stopsAtFault_methodSignature h
  · exact tellsFirstFault_of_stops (live_valueType live_finish) stopsAtFault_valueType h

/-- Type parameters that go on with a bracket, a method that breaks off in a name, and a slash
behind an inner class. All of them have letters of two bytes before the fault. -/
theorem three_texts_go_wrong_behind_wide_letters :
    (ClassSignature.parse "<É::Lp/Ö;<" = .error (.emptyName 11) ∧
      TellsFirstFault ClassSignature.parse "<É::Lp/Ö;<" (.emptyName 11)) ∧
    (MethodSignature.parse "(Lp/Ö<*[TÄ" = .error (.unexpectedEnd 12) ∧
      TellsFirstFault MethodSignature.parse "(Lp/Ö<*[TÄ" (.unexpectedEnd 12)) ∧
    (ValueType.parse "Lp/Ö<+TÄ;>.É/Z;" =
        .error (.unexpectedChar '/' 15 "'.' or ';' after inner class") ∧
      TellsFirstFault ValueType.parse "Lp/Ö<+TÄ;>.É/Z;"
        (.unexpectedChar '/' 15 "'.' or ';' after inner class")) := by
  have hclass : ClassSignature.parse "<É::Lp/Ö;<" = .error (.emptyName 11) := by cbv
  have hmethod : MethodSignature.parse "(Lp/Ö<*[TÄ" = .error (.unexpectedEnd 12) := by cbv
  have htype : ValueType.parse "Lp/Ö<+TÄ;>.É/Z;" =
      .error (.unexpectedChar '/' 15 "'.' or ';' after inner class") := by cbv
  have h := signatures_go_wrong_where_it_is_told
  exact ⟨⟨hclass, h.1 _ _ hclass⟩, ⟨hmethod, h.2.1 _ _ hmethod⟩, ⟨htype, h.2.2 _ _ htype⟩⟩

end ClassAtlas.Signature
