-- The limit on how deep the values of annotations nest. A value that a pool holds the constants
-- of is read back if its values lie at most 256 levels down, and refused if they lie deeper. An
-- array takes them one level down, but a nested annotation takes them two.
import ClassAtlas.Proofs.Descriptor.Values

namespace ClassAtlas

/-! ## How deep values lie -/

mutual

/-- How many arrays and nested annotations stand around the values inside a value, at most. -/
def ElementValue.depth : ElementValue → Nat
  | .nested _ elements => elementsDepth elements
  | .array values => valuesDepth values
  | _ => 0

def elementsDepth : List (String × ElementValue) → Nat
  | [] => 0
  | (_, value) :: rest => max (value.depth + 1) (elementsDepth rest)

def valuesDepth : List ElementValue → Nat
  | [] => 0
  | value :: rest => max (value.depth + 1) (valuesDepth rest)

end

mutual

/-- No annotation inside the value holds values. -/
def ElementValue.OnlyArrays : ElementValue → Prop
  | .nested _ elements => elements = []
  | .array values => ValuesOnlyArrays values
  | _ => True

def ValuesOnlyArrays : List ElementValue → Prop
  | [] => True
  | value :: rest => value.OnlyArrays ∧ ValuesOnlyArrays rest

end

mutual

theorem ElementValue.depth_le_nesting : ∀ v : ElementValue, v.depth ≤ v.nesting ∧ v.nesting ≤ 2 * v.depth
  | .byte _ | .char _ | .short _ | .boolean _ | .int _ | .long _ | .float _ | .double _
  | .string _ | .classLiteral _ | .enumConstant _ _ => ⟨Nat.le_refl 0, Nat.le_refl 0⟩
  | .nested _ elements => elementsDepth_le_nesting elements
  | .array values => valuesDepth_le_nesting values

theorem elementsDepth_le_nesting : ∀ elements : List (String × ElementValue),
    elementsDepth elements ≤ elementsNesting elements ∧
      elementsNesting elements ≤ 2 * elementsDepth elements
  | [] => ⟨Nat.le_refl 0, Nat.le_refl 0⟩
  | (_, value) :: rest => by
    have hvalue := value.depth_le_nesting
    have hrest := elementsDepth_le_nesting rest
    rw [elementsDepth, elementsNesting]
    omega

theorem valuesDepth_le_nesting : ∀ values : List ElementValue,
    valuesDepth values ≤ valuesNesting values ∧ valuesNesting values ≤ 2 * valuesDepth values
  | [] => ⟨Nat.le_refl 0, Nat.le_refl 0⟩
  | value :: rest => by
    have hvalue := value.depth_le_nesting
    have hrest := valuesDepth_le_nesting rest
    rw [valuesDepth, valuesNesting]
    omega

end

mutual

theorem ElementValue.OnlyArrays.nesting_eq : ∀ {v : ElementValue}, v.OnlyArrays → v.nesting = v.depth
  | .byte _, _ | .char _, _ | .short _, _ | .boolean _, _ | .int _, _ | .long _, _ | .float _, _
  | .double _, _ | .string _, _ | .classLiteral _, _ | .enumConstant _ _, _ => rfl
  | .nested _ _, h => by
    obtain rfl : _ = [] := h
    rfl
  | .array _, h => ValuesOnlyArrays.nesting_eq h

theorem ValuesOnlyArrays.nesting_eq : ∀ {values : List ElementValue}, ValuesOnlyArrays values →
    valuesNesting values = valuesDepth values
  | [], _ => rfl
  | _ :: _, h => by rw [valuesNesting, valuesDepth, h.1.nesting_eq, h.2.nesting_eq]

end

/-! ## Readers that refuse -/

namespace Decoder

/-- The reader refuses these bytes with this fault, wherever they stand and whatever follows. -/
def Refuses {α : Type} (reader : Decoder α) (bytes : Bytes) (fault : DescriptorFault) : Prop :=
  ∀ position rest, ∃ c, reader ⟨position, bytes ++ rest⟩ = .error fault c

variable {α β : Type} {reader : Decoder α} {next : α → Decoder β} {front back : Bytes} {a : α}
  {fault : DescriptorFault}

theorem refuses_throw (bytes : Bytes) : Refuses (throw fault : Decoder α) bytes fault :=
  fun position rest => ⟨⟨position, bytes ++ rest⟩, rfl⟩

theorem Refuses.bind (h : Refuses reader front fault) : Refuses (reader >>= next) (front ++ back) fault := by
  intro position rest
  rw [List.append_assoc]
  obtain ⟨c, hfront⟩ := h position (back ++ rest)
  exact ⟨c, bind_of_error hfront⟩

theorem Refuses.bind_nil (h : Refuses reader front fault) : Refuses (reader >>= next) front fault := by
  have hboth : Refuses (reader >>= next) (front ++ []) fault := h.bind
  rwa [List.append_nil] at hboth

theorem Refuses.behind (hfront : Reads reader front a) (h : Refuses (next a) back fault) :
    Refuses (reader >>= next) (front ++ back) fault := by
  intro position rest
  rw [List.append_assoc, bind_of_ok (hfront _ _)]
  exact h _ rest

theorem Refuses.counted {n : Nat} (hn : n ≤ 65535) (h : Refuses (times n reader) front fault) :
    Refuses (counted reader) (BigEndian.word16 (UInt16.ofNat n) ++ front) fault := by
  have hcount : (UInt16.ofNat n).toNat = n := by
    rw [UInt16.toNat_ofNat']
    omega
  refine .behind (reads_word16 _) ?_
  rw [hcount]
  exact h

end Decoder

namespace PoolBuilder

open Decoder (Reads Refuses)
open AnnotationRecord (decodeValue decodeTagged maxNesting)
open BigEndian (word16)

variable {β : Type}

/-- A writer that is right in two ways. -/
theorem Yields.and {writer : Writer β} {texts : List String} {first second : ConstantPool → β → Prop}
    (h : Yields writer texts first) (h' : Yields writer texts second) :
    Yields writer texts fun pool b => first pool b ∧ second pool b :=
  fun p => ⟨(h p).1, fun pool hheld => ⟨(h p).2 pool hheld, (h' p).2 pool hheld⟩⟩

/-- A reader that goes less deep than the value refuses it. -/
def RefusesBelow (pool : ConstantPool) (value : ElementValue) (bytes : Bytes) : Prop :=
  ∀ levels ≤ value.nesting, Refuses (decodeValue pool levels) bytes (.tooDeep maxNesting)

/-- A value without values inside is refused by the reader that does not go to it at all. -/
theorem refusesBelow_of_leaf {pool : ConstantPool} {value : ElementValue} {bytes : Bytes}
    (h : value.nesting = 0) : RefusesBelow pool value bytes := by
  intro levels hlevels
  obtain rfl : levels = 0 := by omega
  exact Decoder.refuses_throw bytes

theorem refusesBelow_of_tag {pool : ConstantPool} {value : ElementValue} {tag : Char} {rest : Bytes}
    (htag : tag.toNat < 128)
    (h : ∀ levels < value.nesting, ∀ byte, Char.ofNat byte.toNat = tag →
      Refuses (decodeTagged pool (decodeValue pool levels) (decodeValue pool (levels - 1)) byte)
        rest (.tooDeep maxNesting)) :
    RefusesBelow pool value (UInt8.ofNat tag.toNat :: rest) := by
  intro levels hlevels
  cases levels with
  | zero => exact Decoder.refuses_throw _
  | succ levels =>
    rw [decodeValue_succ]
    exact .behind (Decoder.reads_u1 _) (h levels hlevels _ (char_of_tag htag))

theorem exists_of_lt_elementsNesting {elements : List (String × ElementValue)} {levels : Nat}
    (h : levels < elementsNesting elements) : ∃ e ∈ elements, levels ≤ e.2.nesting + 1 := by
  induction elements with
  | nil => exact absurd h (Nat.not_lt_zero levels)
  | cons e rest ih =>
    rw [elementsNesting] at h
    rcases Nat.lt_or_ge levels (e.2.nesting + 2) with he | he
    · exact ⟨e, by simp, by omega⟩
    · obtain ⟨d, hd, hle⟩ := ih (by omega)
      exact ⟨d, by simp [hd], hle⟩

theorem exists_of_lt_valuesNesting {values : List ElementValue} {levels : Nat}
    (h : levels < valuesNesting values) : ∃ v ∈ values, levels ≤ v.nesting := by
  induction values with
  | nil => exact absurd h (Nat.not_lt_zero levels)
  | cons v rest ih =>
    rw [valuesNesting] at h
    rcases Nat.lt_or_ge levels (v.nesting + 1) with hv | hv
    · exact ⟨v, by simp, by omega⟩
    · obtain ⟨w, hw, hle⟩ := ih (by omega)
      exact ⟨w, by simp [hw], hle⟩

theorem refuses_decodeWith {pool : ConstantPool} {levels : Nat} {typeName : String} {i : UInt16}
    {body : Bytes} {elements : List (String × ElementValue)} {fault : DescriptorFault}
    (hcount : CountFits elements) (htype : pool.text i = .ok (Name.descriptor typeName))
    (hbody : Refuses (Decoder.times elements.length (decodeElement pool levels)) body fault) :
    Refuses (AnnotationRecord.decodeWith pool (decodeValue pool levels))
      (word16 i ++ (Descriptor.count elements.length ++ body)) fault :=
  .behind (Decoder.reads_lookUp htype) (hbody.counted hcount).bind_nil

mutual

-- On both lists the induction carries the levels along: the reader of the items is the same for
-- all of them, and the first item that lies too deep for it stops it.
/-- The values in front of one that lies too deep are read, and those behind it are not looked at. -/
theorem yields_refusal : ∀ value : ElementValue, value.Fits →
    Yields (Descriptor.writeValue value) [] fun pool bytes => RefusesBelow pool value bytes
  | .byte _, h | .char _, h | .short _, h | .boolean _, h | .int _, h | .long _, h | .float _, h
  | .double _, h | .string _, h | .classLiteral _, h | .enumConstant _ _, h =>
    (yields_writeValue _ h).mono fun _ _ _ => refusesBelow_of_leaf rfl
  | .nested typeName elements, h => by
    refine (yields_tagged '@' (yields_text h.1.short)).bind fun typeBytes => ?_
    refine ((yields_elementsRefusal elements h.2.2).mono fun pool body hbody htype => ?_).bind_pure
    obtain ⟨i, rfl, htype⟩ := htype
    rw [List.append_assoc]
    refine refusesBelow_of_tag (by decide) fun levels hlevels byte htag => ?_
    obtain ⟨e, he, hle⟩ := exists_of_lt_elementsNesting hlevels
    have hinner := hbody (levels - 1) ⟨e, he, by omega⟩
    rw [decodeTagged, htag]
    exact (refuses_decodeWith h.2.1 htype hinner).bind_nil
  | .array values, h => by
    refine ((yields_valuesRefusal values h.2).mono fun pool body hbody => ?_).bind_pure
    refine refusesBelow_of_tag (by decide) fun levels hlevels byte htag => ?_
    rw [decodeTagged, htag]
    exact ((hbody levels (exists_of_lt_valuesNesting hlevels)).counted h.1).bind_nil

theorem yields_elementsRefusal : ∀ elements, ElementsFit elements →
    Yields (Descriptor.writeElements elements) [] fun pool bytes =>
      ∀ levels, (∃ e ∈ elements, levels ≤ e.2.nesting) →
        Refuses (Decoder.times elements.length (decodeElement pool levels)) bytes (.tooDeep maxNesting)
  | [], _ => yields_pure fun _ _ ⟨_, he, _⟩ => nomatch he
  | (name, value) :: rest, h => by
    refine (yields_text h.1).bind fun index => ?_
    refine ((yields_writeValue value h.2.1).and (yields_refusal value h.2.1)).bind fun front => ?_
    refine ((yields_elementsRefusal rest h.2.2).mono ?_).bind_pure
    intro pool back hback hfront hname levels ⟨e, he, hle⟩
    rcases Nat.lt_or_ge value.nesting levels with hlt | hge
    · have hvalue : Reads (decodeElement pool levels) (word16 index ++ front) (name, value) :=
        (Decoder.reads_lookUp hname).bind ((hfront.1 levels hlt).bind_pure _)
      have hrest : e ∈ rest := by
        rcases List.mem_cons.mp he with rfl | hmem
        · exact absurd hle (Nat.not_le.mpr hlt)
        · exact hmem
      exact .behind hvalue (hback levels ⟨e, hrest, hle⟩).bind_nil
    · have hvalue : Refuses (decodeElement pool levels) (word16 index ++ front) (.tooDeep maxNesting) :=
        .behind (Decoder.reads_lookUp hname) (hfront.2 levels hge).bind_nil
      exact hvalue.bind

theorem yields_valuesRefusal : ∀ values, ValuesFit values →
    Yields (Descriptor.writeValues values) [] fun pool bytes =>
      ∀ levels, (∃ v ∈ values, levels ≤ v.nesting) →
        Refuses (Decoder.times values.length (decodeValue pool levels)) bytes (.tooDeep maxNesting)
  | [], _ => yields_pure fun _ _ ⟨_, hv, _⟩ => nomatch hv
  | value :: rest, h => by
    refine ((yields_writeValue value h.1).and (yields_refusal value h.1)).bind fun front => ?_
    refine ((yields_valuesRefusal rest h.2).mono ?_).bind_pure
    intro pool back hback hfront levels ⟨v, hv, hle⟩
    rcases Nat.lt_or_ge value.nesting levels with hlt | hge
    · have hrest : v ∈ rest := by
        rcases List.mem_cons.mp hv with rfl | hmem
        · omega
        · exact hmem
      exact .behind (hfront.1 levels hlt) (hback levels ⟨v, hrest, hle⟩).bind_nil
    · exact (hfront.2 levels hge).bind

end

end PoolBuilder

/-! ## The limit -/

namespace AnnotationRecord

open PoolBuilder (Held)

/-- A value whose constants are in the pool is refused exactly if values inside it lie more than
256 levels down, and read as it is otherwise. The levels are those of the reader: one for an array
and two for a nested annotation. So the number of arrays and nested annotations around the deepest
value decides if only arrays hold values; if not, more than 256 are always refused and up to 128
always read. -/
theorem a_value_is_refused_if_it_nests_too_deep {v : ElementValue} (hfits : v.Fits)
    {p : PoolBuilder} {pool : ConstantPool} (hheld : (Descriptor.writeValue v p).2.Held pool)
    (position : Nat) (rest : Bytes) :
    ((∃ c, decodeOuterValue pool ⟨position, (Descriptor.writeValue v p).1 ++ rest⟩ =
        .error (.tooDeep 256) c) ↔ 256 < v.nesting) ∧
      (v.nesting ≤ 256 → decodeOuterValue pool ⟨position, (Descriptor.writeValue v p).1 ++ rest⟩ =
        .ok v ⟨position + (Descriptor.writeValue v p).1.length, rest⟩) ∧
      v.depth ≤ v.nesting ∧ v.nesting ≤ 2 * v.depth ∧ (v.OnlyArrays → v.nesting = v.depth) := by
  obtain ⟨hle, hge⟩ := v.depth_le_nesting
  have hread : v.nesting ≤ 256 →
      decodeOuterValue pool ⟨position, (Descriptor.writeValue v p).1 ++ rest⟩ =
        .ok v ⟨position + (Descriptor.writeValue v p).1.length, rest⟩ := fun h =>
    (PoolBuilder.yields_writeValue v hfits p).2 pool hheld (maxNesting + 1) (Nat.lt_succ_of_le h)
      position rest
  refine ⟨⟨fun ⟨c, herror⟩ => ?_, fun h => ?_⟩, hread, hle, hge, fun h => h.nesting_eq⟩
  · refine Nat.lt_of_not_le fun hshallow => ?_
    rw [hread hshallow] at herror
    cases herror
  · exact (PoolBuilder.yields_refusal v hfits p).2 pool hheld (maxNesting + 1) h position rest

/-- A number inside of so many annotations. -/
def chain : Nat → ElementValue
  | 0 => .int 1
  | n + 1 => .nested "p.A" [("value", chain n)]

theorem fits_chain (n : Nat) : (chain n).Fits := by
  induction n with
  | zero => trivial
  | succ n ih =>
    have hname : TypeNameFits "p.A" := ⟨by decide, by decide⟩
    have hcount : CountFits [("value", chain n)] := Nat.succ_le_succ (Nat.zero_le _)
    exact ⟨hname, hcount, by decide, ih, trivial⟩

theorem depth_chain (n : Nat) : (chain n).depth = n := by
  induction n with
  | zero => rfl
  | succ n ih => simp [chain, ElementValue.depth, elementsDepth, ih]

theorem nesting_chain (n : Nat) : (chain n).nesting = 2 * n := by
  induction n with
  | zero => rfl
  | succ n ih =>
    simp [chain, ElementValue.nesting, elementsNesting, ih]
    omega

/-- The pool of the constants of an annotation inside of annotations. -/
def chainPool (n : Nat) : ConstantPool :=
  ConstantPool.ofConstants (Descriptor.writeValue (chain n) PoolBuilder.empty).2.constants

theorem held_chain {n : Nat}
    (h : slotsOf (Descriptor.writeValue (chain n) PoolBuilder.empty).2.constants ≤ 65534) :
    (Descriptor.writeValue (chain n) PoolBuilder.empty).2.Held (chainPool n) :=
  ((PoolBuilder.yields_writeValue (chain n) (fits_chain n) PoolBuilder.empty).1.sound
    PoolBuilder.sound_empty).held h

/-- An annotation in an annotation is read with its number. -/
theorem a_short_chain_is_read :
    decodeOuterValue (chainPool 2) ⟨0, (Descriptor.writeValue (chain 2) PoolBuilder.empty).1 ++ []⟩ =
      .ok (chain 2) ⟨0 + (Descriptor.writeValue (chain 2) PoolBuilder.empty).1.length, []⟩ := by
  have hheld := held_chain (n := 2) (by decide +kernel)
  exact (a_value_is_refused_if_it_nests_too_deep (fits_chain 2) hheld 0 []).2.1 (by decide)

/-- A number inside of 129 annotations is refused. -/
theorem a_long_chain_is_refused_before_256_levels :
    ¬ ∀ (v : ElementValue) (p : PoolBuilder) (pool : ConstantPool) (position : Nat) (rest : Bytes),
      v.Fits → (Descriptor.writeValue v p).2.Held pool →
        ((∃ c, decodeOuterValue pool ⟨position, (Descriptor.writeValue v p).1 ++ rest⟩ =
          .error (.tooDeep 256) c) ↔ 256 < v.depth) := by
  intro h
  have hheld := held_chain (n := 129) (by decide +kernel)
  have hrefused := (PoolBuilder.yields_refusal _ (fits_chain 129) PoolBuilder.empty).2 _ hheld
    (maxNesting + 1) (by rw [nesting_chain]; decide) 0 []
  have hdepth := (h _ _ _ 0 [] (fits_chain 129) hheld).mp hrefused
  rw [depth_chain] at hdepth
  omega

end AnnotationRecord

end ClassAtlas
