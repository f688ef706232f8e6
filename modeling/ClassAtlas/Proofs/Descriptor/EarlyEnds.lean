-- Where a descriptor is said to end too early. A reader that runs out of bytes tells where its
-- cursor stands, and the bytes up to there alone bring it to the same stop. The body of an
-- attribute is read by a cursor of its own, so what is told of a body is counted from its start.
import Mathlib.Algebra.GroupWithZero.Nat
import ClassAtlas.Proofs.Descriptor.Padding

namespace ClassAtlas

open BigEndian (word32)

/-! ## Look-ups -/

/-- A look-up does not fail for want of bytes. -/
def NoEarlyEnd {α : Type} (answer : Except DescriptorFault α) : Prop :=
  ∀ offset, answer ≠ .error (.unexpectedEnd offset)

section

variable {α β : Type}

instance (answer : Except DescriptorFault α) (fault : DescriptorFault) :
    Decidable (answer = .error fault) :=
  match answer with
  | .ok _ => .isFalse nofun
  | .error found => decidable_of_iff (found = fault) ⟨congrArg Except.error, Except.error.inj⟩

theorem noEarlyEnd_ok (a : α) : NoEarlyEnd (.ok a) := fun _ => nofun

theorem NoEarlyEnd.bind {answer : Except DescriptorFault α} {next : α → Except DescriptorFault β}
    (h : NoEarlyEnd answer) (hnext : ∀ a, NoEarlyEnd (next a)) : NoEarlyEnd (answer >>= next) := by
  cases answer with
  | ok a => exact hnext a
  | error fault =>
    intro offset heq
    exact h offset (congrArg Except.error (Except.error.inj heq))

theorem NoEarlyEnd.map {answer : Except DescriptorFault α} (h : NoEarlyEnd answer) (put : α → β) :
    NoEarlyEnd (answer.map put) := by
  cases answer with
  | ok a => exact noEarlyEnd_ok (put a)
  | error fault =>
    intro offset heq
    exact h offset (congrArg Except.error (Except.error.inj heq))

theorem NoEarlyEnd.mapM {look : α → Except DescriptorFault β} (h : ∀ a, NoEarlyEnd (look a))
    (items : List α) : NoEarlyEnd (items.mapM look) := by
  induction items with
  | nil => exact noEarlyEnd_ok []
  | cons a rest ih =>
    rw [List.mapM_cons]
    exact (h a).bind fun b => ih.bind fun bs => noEarlyEnd_ok (b :: bs)

end

namespace ConstantPool

variable (pool : ConstantPool)

theorem noEarlyEnd_get (index : UInt16) : NoEarlyEnd (pool.get index) := by
  unfold get
  split
  · exact fun _ => nofun
  · split
    · exact noEarlyEnd_ok _
    · exact fun _ => nofun

theorem noEarlyEnd_pick {α : Type} (expected : String) (view : Constant → Option α) (index : UInt16) :
    NoEarlyEnd (pool.pick expected view index) := by
  refine (noEarlyEnd_get pool index).bind fun c => ?_
  split
  · exact noEarlyEnd_ok _
  · exact fun _ => nofun

theorem noEarlyEnd_text (index : UInt16) : NoEarlyEnd (pool.text index) := noEarlyEnd_pick pool _ _ index

theorem noEarlyEnd_className (index : UInt16) : NoEarlyEnd (pool.className index) :=
  (noEarlyEnd_pick pool _ _ index).bind (noEarlyEnd_text pool)

theorem noEarlyEnd_optionally {α : Type} {look : UInt16 → Except DescriptorFault α}
    (h : ∀ index, NoEarlyEnd (look index)) (index : UInt16) : NoEarlyEnd (optionally look index) := by
  unfold optionally
  split
  · exact noEarlyEnd_ok none
  · exact (h index).map some

theorem noEarlyEnd_classNames : NoEarlyEnd pool.classNames :=
  NoEarlyEnd.mapM (noEarlyEnd_text pool) _

theorem noEarlyEnd_constantValue (index : UInt16) :
    NoEarlyEnd (Descriptor.constantValue pool index) := by
  refine (noEarlyEnd_get pool index).bind fun c => ?_
  split
  case h_5 => exact (noEarlyEnd_text pool _).bind fun _ => noEarlyEnd_ok _
  case h_6 => exact fun _ => nofun
  all_goals exact noEarlyEnd_ok _

end ConstantPool

/-! ## Readers that tell where the bytes end -/

namespace Decoder

variable {α β : Type}

/-- A step of a reader that fails has failed, or the one behind it. -/
theorem bind_eq_error {reader : Decoder α} {next : α → Decoder β} {c c' : Cursor}
    {fault : DescriptorFault} (h : (reader >>= next) c = .error fault c') :
    reader c = .error fault c' ∨ ∃ a c₁, reader c = .ok a c₁ ∧ next a c₁ = .error fault c' := by
  cases hfirst : reader c with
  | error _ _ =>
    rw [bind_of_error hfirst] at h
    cases h
    exact Or.inl rfl
  | ok a c₁ =>
    rw [bind_of_ok hfirst] at h
    exact Or.inr ⟨a, c₁, rfl, h⟩

theorem run_eq_error {bytes : Bytes} {reader : Decoder α} {fault : DescriptorFault}
    (h : run reader bytes = .error fault) : ∃ c, reader ⟨0, bytes⟩ = .error fault c := by
  unfold run Cursor.ofBytes at h
  cases hread : reader ⟨0, bytes⟩ with
  | ok a c =>
    rw [hread] at h
    cases h
  | error _ c =>
    rw [hread] at h
    cases h
    exact ⟨c, rfl⟩

theorem within_eq_error {body : Bytes} {reader : Decoder α} {c c' : Cursor} {fault : DescriptorFault}
    (h : within body reader c = .error fault c') : ∃ c₁, reader ⟨0, body⟩ = .error fault c₁ := by
  unfold within Cursor.ofBytes at h
  cases hread : reader ⟨0, body⟩ with
  | ok a c₁ =>
    rw [hread] at h
    cases h
  | error _ c₁ =>
    rw [hread] at h
    cases h
    exact ⟨c₁, rfl⟩

/-- What a reader has accepted, it accepts at each place and before everything. -/
theorem Delimited.split {reader : Decoder α} (h : Delimited reader) {position : Nat} {bytes : Bytes}
    {a : α} {c : Cursor} (hok : reader ⟨position, bytes⟩ = .ok a c) :
    ∃ used rest, bytes = used ++ rest ∧ Reads reader used a ∧ c = ⟨position + used.length, rest⟩ := by
  obtain ⟨used, rfl, hspans⟩ := h _ _ _ _ hok
  have hread := hspans.reads position c.rest
  rw [hok] at hread
  exact ⟨used, c.rest, rfl, hspans.reads, (EStateM.Result.ok.inj hread).2⟩

/-- The reader asks for more just behind these bytes. -/
def StopsBehind (reader : Decoder α) (front : Bytes) : Prop :=
  ∀ position, ∃ c, reader ⟨position, front⟩ = .error (.unexpectedEnd (position + front.length)) c

/-- The reader asks for more inside a body, whose length stands in front of it, and tells an offset
from the start of the body. Neither what follows the body nor what follows the offset in it makes a
difference. If the bytes end inside the body, the reader stops at its start. -/
structure StopsInside (reader : Decoder α) (front body : Bytes) (offset : Nat) : Prop where
  short : body.length < 2 ^ 32
  offset_le : offset ≤ body.length
  whole : ∀ position suffix, ∃ c, reader ⟨position, front ++
    (word32 (UInt32.ofNat body.length) ++ (body ++ suffix))⟩ = .error (.unexpectedEnd offset) c
  shortened : ∀ position suffix, ∃ c, reader ⟨position, front ++
    (word32 (UInt32.ofNat offset) ++ (body.take offset ++ suffix))⟩ = .error (.unexpectedEnd offset) c
  cut : ∀ m < body.length, ∀ position, ∃ c, reader ⟨position, front ++
    (word32 (UInt32.ofNat body.length) ++ body.take m)⟩ =
      .error (.unexpectedEnd (position + front.length + 4)) c

/-- Whenever the reader asks for more, it does so just behind some front of the bytes or, if it
reads bodies, inside one of them. -/
def TellsEnds (bodies : Prop) (reader : Decoder α) : Prop :=
  ∀ position bytes offset c, reader ⟨position, bytes⟩ = .error (.unexpectedEnd offset) c →
    (∃ front back, bytes = front ++ back ∧ offset = position + front.length ∧
      StopsBehind reader front) ∨
    bodies ∧ ∃ front body back, bytes = front ++
      (word32 (UInt32.ofNat body.length) ++ (body ++ back)) ∧ StopsInside reader front body offset

/-! ## Putting readers together -/

section

variable {reader : Decoder α} {next : α → Decoder β} {front body used : Bytes} {offset : Nat} {a : α}

theorem StopsBehind.bind (h : StopsBehind reader front) : StopsBehind (reader >>= next) front := by
  intro position
  obtain ⟨c, hstop⟩ := h position
  exact ⟨c, bind_of_error hstop⟩

theorem StopsBehind.behind (hread : Reads reader used a) (h : StopsBehind (next a) front) :
    StopsBehind (reader >>= next) (used ++ front) := by
  intro position
  obtain ⟨c, hstop⟩ := h (position + used.length)
  rw [bind_of_ok (hread position front), List.length_append, ← Nat.add_assoc]
  exact ⟨c, hstop⟩

theorem StopsInside.bind (h : StopsInside reader front body offset) :
    StopsInside (reader >>= next) front body offset where
  short := h.short
  offset_le := h.offset_le
  whole position suffix := (h.whole position suffix).imp fun _ => bind_of_error
  shortened position suffix := (h.shortened position suffix).imp fun _ => bind_of_error
  cut m hm position := (h.cut m hm position).imp fun _ => bind_of_error

theorem StopsInside.behind (hread : Reads reader used a) (h : StopsInside (next a) front body offset) :
    StopsInside (reader >>= next) (used ++ front) body offset where
  short := h.short
  offset_le := h.offset_le
  whole position suffix := by
    rw [List.append_assoc, bind_of_ok (hread position _)]
    exact h.whole _ suffix
  shortened position suffix := by
    rw [List.append_assoc, bind_of_ok (hread position _)]
    exact h.shortened _ suffix
  cut m hm position := by
    rw [List.append_assoc, bind_of_ok (hread position _), List.length_append, ← Nat.add_assoc]
    exact h.cut m hm _

end

variable {bodies : Prop}

theorem tellsEnds_pure (a : α) : TellsEnds bodies (pure a : Decoder α) := fun _ _ _ _ => nofun

/-- A reader of no bodies asks for more just behind a front of the bytes. -/
theorem TellsEnds.stopsBehind {reader : Decoder α} (h : TellsEnds False reader) {position offset : Nat}
    {bytes : Bytes} {c : Cursor} (hstop : reader ⟨position, bytes⟩ = .error (.unexpectedEnd offset) c) :
    ∃ front back, bytes = front ++ back ∧ offset = position + front.length ∧
      StopsBehind reader front :=
  (h _ _ _ _ hstop).resolve_right fun hinside => hinside.1

theorem not_unexpectedEnd_ofExcept {answer : Except DescriptorFault α} (h : NoEarlyEnd answer)
    {offset : Nat} {c c' : Cursor} : (ofExcept answer : Decoder α) c ≠ .error (.unexpectedEnd offset) c' := by
  intro hstop
  cases answer with
  | ok a => cases hstop
  | error fault =>
    cases hstop
    exact h offset rfl

theorem tellsEnds_ofExcept {answer : Except DescriptorFault α} (h : NoEarlyEnd answer) :
    TellsEnds bodies (ofExcept answer : Decoder α) :=
  fun _ _ _ _ hstop => absurd hstop (not_unexpectedEnd_ofExcept h)

theorem tellsEnds_throw {fault : DescriptorFault} (h : ∀ offset, fault ≠ .unexpectedEnd offset) :
    TellsEnds bodies (throw fault : Decoder α) := by
  rintro position bytes offset c ⟨⟩
  exact absurd rfl (h offset)

theorem TellsEnds.bind {reader : Decoder α} {next : α → Decoder β} (h : TellsEnds bodies reader)
    (hdelimited : Delimited reader) (hnext : ∀ a, TellsEnds bodies (next a)) :
    TellsEnds bodies (reader >>= next) := by
  intro position bytes offset c hstop
  rcases bind_eq_error hstop with hfirst | ⟨a, c₁, hfirst, hsecond⟩
  · rcases h _ _ _ _ hfirst with
      ⟨front, back, hbytes, hoffset, hstops⟩ | ⟨hbodies, front, body, back, hbytes, hstops⟩
    · exact Or.inl ⟨front, back, hbytes, hoffset, hstops.bind⟩
    · exact Or.inr ⟨hbodies, front, body, back, hbytes, hstops.bind⟩
  · obtain ⟨used, rest, rfl, hread, rfl⟩ := hdelimited.split hfirst
    rcases hnext a _ _ _ _ hsecond with
      ⟨front, back, rfl, rfl, hstops⟩ | ⟨hbodies, front, body, back, rfl, hstops⟩
    · refine Or.inl ⟨used ++ front, back, (List.append_assoc ..).symm, ?_, .behind hread hstops⟩
      rw [List.length_append, Nat.add_assoc]
    · exact Or.inr ⟨hbodies, used ++ front, body, back, (List.append_assoc ..).symm,
        .behind hread hstops⟩

theorem TellsEnds.map {reader : Decoder α} (h : TellsEnds bodies reader)
    (hdelimited : Delimited reader) (put : α → β) : TellsEnds bodies (put <$> reader) := by
  rw [map_eq_pure_bind]
  exact h.bind hdelimited fun a => tellsEnds_pure (put a)

theorem tellsEnds_refuse {p : Prop} [Decidable p] {fault : DescriptorFault}
    {next : Unit → Decoder α} (hfault : ∀ offset, fault ≠ .unexpectedEnd offset)
    (h : TellsEnds bodies (next ())) :
    TellsEnds bodies (if p then throw fault >>= next else next ()) := by
  split
  · exact (tellsEnds_throw hfault).bind (delimited_throw fault) fun _ => h
  · exact h

/-! ## Bytes, words and lists -/

theorem length_lt_of_slice {n offset : Nat} {c c' : Cursor}
    (h : slice n c = .error (.unexpectedEnd offset) c') :
    c.rest.length < n ∧ offset = c.position := by
  unfold slice cut? at h
  by_cases hlength : (c.rest.take n).length = n
  · simp [hlength] at h
  · simp only [hlength, if_false, EStateM.Result.error.injEq, DescriptorFault.unexpectedEnd.injEq] at h
    rw [List.length_take] at hlength
    exact ⟨by omega, h.1.symm⟩

theorem tellsEnds_slice (n : Nat) : TellsEnds bodies (slice n) := by
  intro position bytes offset c hstop
  obtain ⟨hlength, hoffset⟩ := length_lt_of_slice hstop
  refine Or.inl ⟨[], bytes, rfl, hoffset, fun position => ⟨⟨position, []⟩, ?_⟩⟩
  exact slice_of_short (Nat.zero_lt_of_lt hlength) position

theorem tellsEnds_u1 : TellsEnds bodies u1 :=
  (tellsEnds_slice 1).bind (delimited_slice 1) fun _ => tellsEnds_pure _

theorem tellsEnds_u2 : TellsEnds bodies u2 :=
  (tellsEnds_slice 2).bind (delimited_slice 2) fun _ => tellsEnds_pure _

theorem tellsEnds_u4 : TellsEnds bodies u4 :=
  (tellsEnds_slice 4).bind (delimited_slice 4) fun _ => tellsEnds_pure _

theorem tellsEnds_u8 : TellsEnds bodies u8 :=
  tellsEnds_u4.bind delimited_u4 fun _ => tellsEnds_u4.bind delimited_u4 fun _ => tellsEnds_pure _

theorem tellsEnds_lookUp {look : UInt16 → Except DescriptorFault α}
    (h : ∀ index, NoEarlyEnd (look index)) : TellsEnds bodies (lookUp look) :=
  tellsEnds_u2.bind delimited_u2 fun index => tellsEnds_ofExcept (h index)

theorem TellsEnds.times {reader : Decoder α} (h : TellsEnds bodies reader)
    (hdelimited : Delimited reader) (n : Nat) : TellsEnds bodies (times n reader) := by
  induction n with
  | zero => exact tellsEnds_pure []
  | succ n ih =>
    exact h.bind hdelimited fun a => ih.bind (hdelimited.times n) fun rest => tellsEnds_pure _

theorem TellsEnds.counted {reader : Decoder α} (h : TellsEnds bodies reader)
    (hdelimited : Delimited reader) : TellsEnds bodies (counted reader) :=
  tellsEnds_u2.bind delimited_u2 fun count => h.times hdelimited count.toNat

end Decoder

open Decoder

variable {bodies : Prop}

/-! ## The constants -/

theorem Constant.tellsEnds_decode (index : UInt16) : TellsEnds bodies (Constant.decode index) := by
  refine tellsEnds_u1.bind delimited_u1 fun tag => ?_
  split
  case h_1 =>
    refine tellsEnds_u2.bind delimited_u2 fun n => ?_
    exact (tellsEnds_slice _).bind (delimited_slice _) fun _ => tellsEnds_pure _
  case h_2 | h_3 => exact tellsEnds_u4.bind delimited_u4 fun _ => tellsEnds_pure _
  case h_4 | h_5 => exact tellsEnds_u8.bind delimited_u8 fun _ => tellsEnds_pure _
  case h_6 | h_7 | h_13 | h_16 | h_17 =>
    exact tellsEnds_u2.bind delimited_u2 fun _ => tellsEnds_pure _
  case h_8 | h_9 | h_10 | h_11 | h_14 | h_15 =>
    refine tellsEnds_u2.bind delimited_u2 fun _ => ?_
    exact tellsEnds_u2.bind delimited_u2 fun _ => tellsEnds_pure _
  case h_12 =>
    refine tellsEnds_u1.bind delimited_u1 fun _ => ?_
    exact tellsEnds_u2.bind delimited_u2 fun _ => tellsEnds_pure _
  case h_18 => exact tellsEnds_throw fun _ => nofun

namespace ConstantPool

theorem tellsEnds_decodeEntries (todo : Nat) (entries : Array Constant) :
    TellsEnds bodies (decodeEntries todo entries) := by
  induction todo, entries using decodeEntries.induct with
  | case1 entries => exact tellsEnds_pure entries
  | case2 todo entries hwide hplain =>
    rw [decodeEntries]
    refine (Constant.tellsEnds_decode _).bind (Constant.delimited_decode _) fun c => ?_
    split
    · cases todo with
      | zero => exact tellsEnds_pure _
      | succ todo => exact hwide c
    · exact hplain c

theorem tellsEnds_decode : TellsEnds bodies ConstantPool.decode := by
  refine tellsEnds_u2.bind delimited_u2 fun count => ?_
  exact (tellsEnds_decodeEntries _ _).bind (delimited_decodeEntries _ _) fun _ => tellsEnds_pure _

end ConstantPool

/-! ## Bodies of attributes -/

namespace AnnotationRecord

open ConstantPool (noEarlyEnd_pick noEarlyEnd_text)

variable {pool : ConstantPool}

theorem tellsEnds_decodeWith {value : Decoder ElementValue} (h : TellsEnds bodies value)
    (hdelimited : Delimited value) : TellsEnds bodies (decodeWith pool value) := by
  refine (tellsEnds_lookUp (noEarlyEnd_text pool)).bind (delimited_lookUp _) fun typeName => ?_
  have helement : TellsEnds bodies (do
      let name ← lookUp pool.text
      let v ← value
      return (name, v)) :=
    (tellsEnds_lookUp (noEarlyEnd_text pool)).bind (delimited_lookUp _) fun name =>
      h.bind hdelimited fun v => tellsEnds_pure _
  have hdelimited' : Delimited (do
      let name ← lookUp pool.text
      let v ← value
      return (name, v)) :=
    (delimited_lookUp _).bind fun name => hdelimited.bind fun v => delimited_pure _
  exact (helement.counted hdelimited').bind hdelimited'.counted fun elements => tellsEnds_pure _

theorem tellsEnds_decodeTagged {item inner : Decoder ElementValue} (hitem : TellsEnds bodies item)
    (hitem' : Delimited item) (hinner : TellsEnds bodies inner) (hinner' : Delimited inner)
    (tag : UInt8) : TellsEnds bodies (decodeTagged pool item inner tag) := by
  unfold decodeTagged
  split
  case h_10 =>
    refine (tellsEnds_lookUp (noEarlyEnd_text pool)).bind (delimited_lookUp _) fun _ => ?_
    exact (tellsEnds_lookUp (noEarlyEnd_text pool)).bind (delimited_lookUp _) fun _ => tellsEnds_pure _
  case h_12 =>
    exact (tellsEnds_decodeWith hinner hinner').bind (delimited_decodeWith hinner') fun a => tellsEnds_pure _
  case h_13 => exact (hitem.counted hitem').bind hitem'.counted fun values => tellsEnds_pure _
  case h_14 => exact tellsEnds_throw fun _ => nofun
  all_goals
    exact (tellsEnds_lookUp (noEarlyEnd_pick pool _ _)).bind (delimited_lookUp _) fun _ => tellsEnds_pure _

theorem tellsEnds_decodeValue (levels : Nat) : TellsEnds bodies (decodeValue pool levels) := by
  induction levels using Nat.strongRecOn with
  | ind levels ih =>
    cases levels with
    | zero => exact tellsEnds_throw fun _ => nofun
    | succ levels =>
      rw [PoolBuilder.decodeValue_succ]
      refine tellsEnds_u1.bind delimited_u1 fun tag => ?_
      exact tellsEnds_decodeTagged (ih levels (by omega)) (delimited_decodeValue _)
        (ih (levels - 1) (by omega)) (delimited_decodeValue _) tag

theorem tellsEnds_decodeList : TellsEnds bodies (decodeList pool) :=
  (tellsEnds_decodeWith (tellsEnds_decodeValue _) (delimited_decodeValue _)).counted
    (delimited_decodeWith (delimited_decodeValue _))

theorem tellsEnds_decodeParameters : TellsEnds bodies (decodeParameters pool) :=
  tellsEnds_u1.bind delimited_u1 fun _ => tellsEnds_decodeList.times delimited_decodeList _

end AnnotationRecord

namespace Descriptor

open ConstantPool (noEarlyEnd_text noEarlyEnd_className noEarlyEnd_optionally noEarlyEnd_classNames
  noEarlyEnd_constantValue)
open AnnotationRecord (delimited_decodeList delimited_decodeParameters delimited_decodeValue
  tellsEnds_decodeList tellsEnds_decodeParameters tellsEnds_decodeValue)

variable (options : DecodeOptions) (pool : ConstantPool)

theorem tellsEnds_className : TellsEnds bodies (className pool) :=
  (tellsEnds_lookUp (noEarlyEnd_className pool)).map (delimited_lookUp _) _

theorem tellsEnds_optionalClassName : TellsEnds bodies (optionalClassName pool) :=
  (tellsEnds_lookUp (noEarlyEnd_optionally (noEarlyEnd_className pool))).bind (delimited_lookUp _)
    fun _ => tellsEnds_pure _

theorem tellsEnds_fieldAttribute (name : String) (f : FieldRecord) :
    TellsEnds bodies (fieldAttribute options pool name f) := by
  have hlist : TellsEnds bodies (do
      return { f with annotations := f.annotations ++ (← AnnotationRecord.decodeList pool) }) :=
    tellsEnds_decodeList.bind delimited_decodeList fun _ => tellsEnds_pure _
  unfold fieldAttribute
  split
  · exact (tellsEnds_lookUp (noEarlyEnd_text pool)).bind (delimited_lookUp _) fun _ => tellsEnds_pure _
  · exact (tellsEnds_lookUp (noEarlyEnd_constantValue pool)).bind (delimited_lookUp _)
      fun _ => tellsEnds_pure _
  · exact hlist
  · split
    · exact hlist
    · exact tellsEnds_pure f
  · exact tellsEnds_pure f

theorem tellsEnds_methodAttribute (name : String) (m : MethodRecord) :
    TellsEnds bodies (methodAttribute options pool name m) := by
  have hlist : TellsEnds bodies (do
      return { m with annotations := m.annotations ++ (← AnnotationRecord.decodeList pool) }) :=
    tellsEnds_decodeList.bind delimited_decodeList fun _ => tellsEnds_pure _
  have hparameters : TellsEnds bodies (do
      let more ← AnnotationRecord.decodeParameters pool
      return { m with parameterAnnotations := mergeParameters m.parameterAnnotations more }) :=
    tellsEnds_decodeParameters.bind delimited_decodeParameters fun _ => tellsEnds_pure _
  unfold methodAttribute
  split
  · exact (tellsEnds_lookUp (noEarlyEnd_text pool)).bind (delimited_lookUp _) fun _ => tellsEnds_pure _
  · exact ((tellsEnds_className pool).counted (delimited_className pool)).bind
      (delimited_className pool).counted fun _ => tellsEnds_pure _
  · exact hlist
  · split
    · exact hlist
    · exact tellsEnds_pure m
  · exact hparameters
  · split
    · exact hparameters
    · exact tellsEnds_pure m
  · exact (tellsEnds_decodeValue _).bind (delimited_decodeValue _) fun _ => tellsEnds_pure _
  · exact tellsEnds_pure m

theorem tellsEnds_innerClass : TellsEnds bodies (innerClass pool) := by
  refine (tellsEnds_className pool).bind (delimited_className pool) fun inner => ?_
  refine (tellsEnds_optionalClassName pool).bind (delimited_optionalClassName pool) fun outer => ?_
  refine (tellsEnds_lookUp (noEarlyEnd_optionally (noEarlyEnd_text pool))).bind (delimited_lookUp _)
    fun simpleName => ?_
  exact tellsEnds_u2.bind delimited_u2 fun access => tellsEnds_pure _

theorem tellsEnds_classAttribute (name : String) (r : ClassRecord) :
    TellsEnds bodies (classAttribute options pool name r) := by
  have hlist : TellsEnds bodies (do
      return { r with annotations := r.annotations ++ (← AnnotationRecord.decodeList pool) }) :=
    tellsEnds_decodeList.bind delimited_decodeList fun _ => tellsEnds_pure _
  unfold classAttribute
  split
  · exact (tellsEnds_lookUp (noEarlyEnd_text pool)).bind (delimited_lookUp _) fun _ => tellsEnds_pure _
  · exact hlist
  · split
    · exact hlist
    · exact tellsEnds_pure r
  · exact ((tellsEnds_innerClass pool).counted delimited_innerClass).bind delimited_innerClass.counted
      fun _ => tellsEnds_pure _
  · exact tellsEnds_pure r

/-! ## Tables of attributes -/

/-- What stands behind the index of the name of an attribute: a length, and a body that is read on
its own. The name is looked up in between. -/
def attributeBody {σ : Type} (name : Except DescriptorFault String) (visit : String → Decoder σ) :
    Decoder σ := do
  let length ← u4
  let name ← ofExcept name
  let body ← slice length.toNat
  within body (visit name)

theorem attributes_succ {σ : Type} (visit : String → σ → Decoder σ) (count : Nat) (known : σ) :
    attributes pool visit (count + 1) known = (do
      let index ← u2
      let known ← attributeBody (pool.text index) fun name => visit name known
      attributes pool visit count known) := by
  simp only [attributes, attributeBody, bind_assoc]

theorem delimited_attributeBody {σ : Type} (name : Except DescriptorFault String)
    (visit : String → Decoder σ) : Delimited (attributeBody name visit) := by
  refine delimited_u4.bind fun length => (delimited_ofExcept name).bind fun name => ?_
  exact (delimited_slice length.toNat).bind fun body => delimited_within body _

theorem length_word32 (n : UInt32) : (word32 n).length = 4 := BigEndian.length_bytes 4 n.toNat

section

variable {σ : Type} {name : String} {visit : String → Decoder σ}

/-- A body that is there is read on its own. -/
theorem attributeBody_whole {body : Bytes} (h : body.length < 2 ^ 32) (position : Nat) (suffix : Bytes) :
    attributeBody (.ok name) visit ⟨position, word32 (UInt32.ofNat body.length) ++ (body ++ suffix)⟩ =
      within body (visit name) ⟨position + 4 + body.length, suffix⟩ := by
  have hlength : (UInt32.ofNat body.length).toNat = body.length := UInt32.toNat_ofNat_of_lt' h
  have hslice := reads_slice body (position + 4) suffix
  unfold attributeBody
  rw [bind_of_ok (reads_word32 _ position _), length_word32, hlength]
  exact bind_of_ok hslice

/-- If less is there than the length says, no body is read. -/
theorem attributeBody_cut {length : Nat} {bytes : Bytes} (h : length < 2 ^ 32)
    (hshort : bytes.length < length) (position : Nat) :
    ∃ c, attributeBody (.ok name) visit ⟨position, word32 (UInt32.ofNat length) ++ bytes⟩ =
      .error (.unexpectedEnd (position + 4)) c := by
  have hlength : (UInt32.ofNat length).toNat = length := UInt32.toNat_ofNat_of_lt' h
  unfold attributeBody
  rw [bind_of_ok (reads_word32 _ position _), length_word32, hlength]
  show ∃ c, (slice length >>= fun body => within body (visit name)) ⟨position + 4, bytes⟩ = _
  exact ⟨_, bind_of_error (slice_of_short hshort _)⟩

/-- A body in which its reader asks for more behind some front of it. -/
theorem stopsInside_attributeBody {front back : Bytes} (h : (front ++ back).length < 2 ^ 32)
    (hstops : StopsBehind (visit name) front) {c : Cursor}
    (hbody : visit name ⟨0, front ++ back⟩ = .error (.unexpectedEnd front.length) c) :
    StopsInside (attributeBody (.ok name) visit) [] (front ++ back) front.length := by
  have hlonger : front.length ≤ (front ++ back).length := by simp
  have hwithin : ∀ {body : Bytes} {c₁ : Cursor}, body.length < 2 ^ 32 →
      visit name ⟨0, body⟩ = .error (.unexpectedEnd front.length) c₁ → ∀ position suffix,
      ∃ c, attributeBody (.ok name) visit
        ⟨position, word32 (UInt32.ofNat body.length) ++ (body ++ suffix)⟩ =
          .error (.unexpectedEnd front.length) c := by
    intro body c₁ hshort hstop position suffix
    rw [attributeBody_whole hshort]
    unfold within Cursor.ofBytes
    rw [hstop]
    exact ⟨_, rfl⟩
  obtain ⟨c₁, hfront⟩ := hstops 0
  rw [Nat.zero_add] at hfront
  refine ⟨h, hlonger, hwithin h hbody, ?_, fun m hm position => ?_⟩
  · rw [List.take_left]
    exact hwithin (Nat.lt_of_le_of_lt hlonger h) hfront
  · refine attributeBody_cut h ?_ position
    rw [List.length_take]
    omega

end

/-- What the length of a body is read from, and where the reading goes on. -/
theorem u4_split {position : Nat} {bytes : Bytes} {n : UInt32} {c : Cursor}
    (h : u4 ⟨position, bytes⟩ = .ok n c) : bytes = word32 n ++ c.rest ∧ c.position = position + 4 := by
  obtain rfl : bytes = word32 n ++ c.rest := u4_eq_ok h
  have hread := reads_word32 n position c.rest
  rw [h, length_word32] at hread
  exact ⟨rfl, congrArg Cursor.position (EStateM.Result.ok.inj hread).2⟩

/-- Behind the length of a body, the reader asks for more at the start of the body, if not all of
it is there. If it is there, the reader asks for more inside it. -/
theorem tellsEnds_attributeBody {σ : Type} {name : Except DescriptorFault String}
    {visit : String → Decoder σ} (hname : NoEarlyEnd name)
    (hvisit : ∀ name, TellsEnds False (visit name)) : TellsEnds True (attributeBody name visit) := by
  intro position bytes offset c hstop
  rcases bind_eq_error hstop with hfirst | ⟨length, c₁, hfirst, hlook⟩
  · obtain ⟨front, back, hbytes, hoffset, hstops⟩ := tellsEnds_u4.stopsBehind hfirst
    exact Or.inl ⟨front, back, hbytes, hoffset, hstops.bind⟩
  obtain ⟨rfl, hplace⟩ := u4_split hfirst
  have hword : word32 (UInt32.ofNat length.toNat) = word32 length := by rw [UInt32.ofNat_toNat]
  rcases bind_eq_error hlook with hfault | ⟨text, c₂, hfound, hcut⟩
  · exact absurd hfault (not_unexpectedEnd_ofExcept hname)
  obtain ⟨rfl, rfl⟩ := ofExcept_eq_ok hfound
  rcases bind_eq_error hcut with hshort | ⟨body, c₃, hslice, hbody⟩
  · -- less is there than the length says: the bytes up to the body end at the same place
    obtain ⟨hless, rfl⟩ := length_lt_of_slice hshort
    refine Or.inl ⟨word32 length, c₂.rest, rfl, by rw [hplace, length_word32], fun position => ?_⟩
    have hempty : ([] : Bytes).length < length.toNat := Nat.zero_lt_of_lt hless
    have hstops : ∃ c, attributeBody (.ok text) visit
        ⟨position, word32 (UInt32.ofNat length.toNat) ++ []⟩ = .error (.unexpectedEnd (position + 4)) c :=
      attributeBody_cut length.toNat_lt hempty position
    rwa [hword, List.append_nil, ← length_word32 length] at hstops
  · obtain ⟨hsize, hrest⟩ := slice_eq_ok hslice
    obtain ⟨c₄, hvisited⟩ := within_eq_error hbody
    obtain ⟨front, back, rfl, rfl, hstops⟩ := (hvisit text).stopsBehind hvisited
    rw [Nat.zero_add] at hvisited ⊢
    refine Or.inr ⟨trivial, [], front ++ back, c₃.rest, ?_, ?_⟩
    · rw [hsize, hword, hrest, List.nil_append]
    · exact stopsInside_attributeBody (hsize ▸ length.toNat_lt) hstops hvisited

variable {pool}

theorem tellsEnds_attributes {σ : Type} {visit : String → σ → Decoder σ}
    (hvisit : ∀ name known, TellsEnds False (visit name known)) (count : Nat) (known : σ) :
    TellsEnds True (attributes pool visit count known) := by
  induction count generalizing known with
  | zero => exact tellsEnds_pure known
  | succ count ih =>
    rw [attributes_succ]
    refine tellsEnds_u2.bind delimited_u2 fun index => ?_
    exact (tellsEnds_attributeBody (noEarlyEnd_text pool index) fun name => hvisit name known).bind
      (delimited_attributeBody _ _) ih

theorem tellsEnds_attributeTable {σ : Type} {visit : String → σ → Decoder σ}
    (hvisit : ∀ name known, TellsEnds False (visit name known)) (known : σ) :
    TellsEnds True (attributeTable pool visit known) :=
  tellsEnds_u2.bind delimited_u2 fun count => tellsEnds_attributes hvisit count.toNat known

/-! ## The descriptor -/

theorem tellsEnds_member {σ μ : Type} {visit : String → σ → Decoder σ}
    (hvisit : ∀ name known, TellsEnds False (visit name known)) (bare : UInt16 → String → String → σ)
    (put : String → String → σ → μ) : TellsEnds True (member pool visit bare put) := by
  refine tellsEnds_u2.bind delimited_u2 fun access => ?_
  refine (tellsEnds_lookUp (noEarlyEnd_text pool)).bind (delimited_lookUp _) fun name => ?_
  refine (tellsEnds_lookUp (noEarlyEnd_text pool)).bind (delimited_lookUp _) fun descriptor => ?_
  exact (tellsEnds_attributeTable hvisit _).bind (delimited_attributeTable pool _ _)
    fun known => tellsEnds_pure _

theorem tellsEnds_header : TellsEnds bodies header := by
  refine tellsEnds_u4.bind delimited_u4 fun found => tellsEnds_refuse (fun _ => nofun) ?_
  refine tellsEnds_u2.bind delimited_u2 fun minor => tellsEnds_u2.bind delimited_u2 fun major => ?_
  exact tellsEnds_refuse (fun _ => nofun) (tellsEnds_pure _)

variable (pool)

theorem tellsEnds_field : TellsEnds True (field options pool) :=
  field_eq_member options pool ▸ tellsEnds_member (tellsEnds_fieldAttribute options pool) _ _

theorem tellsEnds_method : TellsEnds True (method options pool) :=
  method_eq_member options pool ▸ tellsEnds_member (tellsEnds_methodAttribute options pool) _ _

theorem tellsEnds_decodeBody (minor major : UInt16) :
    TellsEnds True (decodeBody options minor major pool) := by
  refine tellsEnds_u2.bind delimited_u2 fun access => ?_
  refine (tellsEnds_className pool).bind (delimited_className pool) fun name => ?_
  refine (tellsEnds_optionalClassName pool).bind (delimited_optionalClassName pool)
    fun superclass => ?_
  refine ((tellsEnds_className pool).counted (delimited_className pool)).bind
    (delimited_className pool).counted fun interfaces => ?_
  refine ((tellsEnds_field options pool).counted (delimited_field options pool)).bind
    (delimited_field options pool).counted fun fields => ?_
  refine ((tellsEnds_method options pool).counted (delimited_method options pool)).bind
    (delimited_method options pool).counted fun methods => ?_
  refine (tellsEnds_attributeTable (tellsEnds_classAttribute options pool) _).bind
    (delimited_attributeTable pool _ _) fun r => ?_
  exact (tellsEnds_ofExcept (noEarlyEnd_classNames pool)).bind (delimited_ofExcept _)
    fun constants => tellsEnds_pure _

theorem tellsEnds_decodeClass : TellsEnds True (decodeClass options) := by
  refine tellsEnds_header.bind delimited_header fun version => ?_
  refine ConstantPool.tellsEnds_decode.bind ConstantPool.delimited_decode fun pool => ?_
  exact tellsEnds_decodeBody options pool version.1 version.2

/-- A descriptor is refused for want of bytes in the body of an attribute, at a place counted from
the start of the body. Neither what follows the body nor, in a body that ends at the place, what
follows it makes a difference. Cut off inside the body, the descriptor is said to end in front of
it, at a place counted from its own first byte. -/
structure EndsInBody (front body : Bytes) (place : Nat) : Prop where
  short : body.length < 2 ^ 32
  place_le : place ≤ body.length
  whole : ∀ suffix, decode options
    (front ++ (word32 (UInt32.ofNat body.length) ++ (body ++ suffix))) = .error (.unexpectedEnd place)
  shortened : ∀ suffix, decode options
    (front ++ (word32 (UInt32.ofNat place) ++ (body.take place ++ suffix))) =
      .error (.unexpectedEnd place)
  cut : ∀ m < body.length, decode options
    (front ++ (word32 (UInt32.ofNat body.length) ++ body.take m)) =
      .error (.unexpectedEnd (front.length + 4))

/-- The place where a descriptor is said to end too early is counted from its first byte, and the
bytes up to there end at the same place, unless it is the body of an attribute that ends too early.
Then the place is counted from the first byte of the body. -/
theorem an_early_end_is_counted_from_the_start_or_in_a_body {bytes : Bytes} {place : Nat}
    (h : decode options bytes = .error (.unexpectedEnd place)) :
    (place ≤ bytes.length ∧ decode options (bytes.take place) = .error (.unexpectedEnd place)) ∨
    ∃ front body back, bytes = front ++ (word32 (UInt32.ofNat body.length) ++ (body ++ back)) ∧
      EndsInBody options front body place := by
  obtain ⟨c, hread⟩ := run_eq_error h
  rcases tellsEnds_decodeClass options _ _ _ _ hread with
    ⟨front, back, rfl, rfl, hstops⟩ | ⟨-, front, body, back, rfl, hstops⟩
  · left
    obtain ⟨c', hfront⟩ := hstops 0
    rw [Nat.zero_add] at hfront ⊢
    rw [List.take_left]
    exact ⟨by simp, run_of_error hfront⟩
  · refine Or.inr ⟨front, body, back, rfl, hstops.short, hstops.offset_le, ?_, ?_, ?_⟩
    · exact fun suffix => (hstops.whole 0 suffix).elim fun _ => run_of_error
    · exact fun suffix => (hstops.shortened 0 suffix).elim fun _ => run_of_error
    · intro m hm
      obtain ⟨c', hcut⟩ := hstops.cut m hm 0
      rw [Nat.zero_add] at hcut
      exact run_of_error hcut

/-- A class `A` without members. Its table of inner classes tells of one entry and ends there, as
the bytes do. -/
def unfinished : Bytes :=
  [0xCA, 0xFE, 0xBA, 0xBE, 0, 0, 0, 52, 0, 4, 1, 0, 1, 65, 7, 0, 1, 1, 0, 12] ++
    "InnerClasses".toUTF8.toList ++
    [0, 0x21, 0, 2, 0, 0, 0, 0, 0, 0, 0, 0, 0, 1, 0, 3, 0, 0, 0, 2, 0, 1]

theorem unfinished_ends : decode ⟨true⟩ unfinished = .error (.unexpectedEnd 2) := by decide +kernel

theorem start_of_unfinished_ends :
    decode ⟨true⟩ (unfinished.take 2) = .error (.unexpectedEnd 0) := by decide +kernel

/-- The class ends two bytes into the body of its table. -/
theorem an_unfinished_table_ends_in_its_body :
    decode ⟨true⟩ unfinished = .error (.unexpectedEnd 2) ∧
    ∃ front body back, unfinished = front ++ (word32 (UInt32.ofNat body.length) ++ (body ++ back)) ∧
      EndsInBody ⟨true⟩ front body 2 := by
  refine ⟨unfinished_ends, ?_⟩
  rcases an_early_end_is_counted_from_the_start_or_in_a_body ⟨true⟩ unfinished_ends with
    ⟨-, hstart⟩ | hbody
  · rw [start_of_unfinished_ends] at hstart
    cases hstart
  · exact hbody

/-- Not each place is counted from the first byte: the class is said to end at place two, and its
first two bytes end at their start. -/
theorem the_start_of_an_unfinished_table_ends_elsewhere :
    ¬ ∀ (options : DecodeOptions) (bytes : Bytes) (place : Nat),
      decode options bytes = .error (.unexpectedEnd place) →
        decode options (bytes.take place) = .error (.unexpectedEnd place) := by
  intro h
  have hstart := h ⟨true⟩ unfinished 2 unfinished_ends
  rw [start_of_unfinished_ends] at hstart
  cases hstart

end Descriptor

end ClassAtlas
