-- Where a descriptor ends. A reader looks at no byte behind those that it takes, and when the
-- bytes stop before that it says so: it takes nothing shorter and finds no other fault there.
import Mathlib.Algebra.GroupWithZero.Nat
import ClassAtlas.Proofs.Descriptor.Answers
import ClassAtlas.Proofs.Descriptor.RoundTrip

namespace ClassAtlas

/-! ## Readers that know where they end -/

namespace Decoder

variable {α β : Type}

/-- The reader takes `bytes` and answers `a`, and asks for more at each shorter front of them. -/
structure Spans (reader : Decoder α) (bytes : Bytes) (a : α) : Prop where
  reads : Reads reader bytes a
  asks : ∀ front back, bytes = front ++ back → back ≠ [] → ∀ position,
    ∃ offset ≤ position + front.length, ∃ c,
      reader ⟨position, front⟩ = .error (.unexpectedEnd offset) c

/-- Whatever the reader accepts, it spans. -/
def Delimited (reader : Decoder α) : Prop :=
  ∀ position bytes a c, reader ⟨position, bytes⟩ = .ok a c →
    ∃ used, bytes = used ++ c.rest ∧ Spans reader used a

/-! ## Putting readers together -/

theorem spans_nil {reader : Decoder α} {a : α} (h : Reads reader [] a) : Spans reader [] a where
  reads := h
  asks := by
    intro front back heq hback
    exact absurd (List.append_eq_nil_iff.mp heq.symm).2 hback

/-- A cut lies in the bytes of the first reader, or in those of the second one behind all of
the first. -/
theorem Spans.bind {reader : Decoder α} {next : α → Decoder β} {front back : Bytes} {a : α} {b : β}
    (hfront : Spans reader front a) (hback : Spans (next a) back b) :
    Spans (reader >>= next) (front ++ back) b where
  reads := hfront.reads.bind hback.reads
  asks := by
    intro kept lost hcut hlost position
    rcases List.append_eq_append_iff.mp hcut with ⟨more, rfl, hmore⟩ | ⟨more, rfl, rfl⟩
    · obtain ⟨offset, hoffset, c, hasks⟩ :=
        hback.asks more lost hmore hlost (position + front.length)
      refine ⟨offset, ?_, c, ?_⟩
      · rw [List.length_append]
        omega
      · rw [bind_of_ok (hfront.reads position more)]
        exact hasks
    · by_cases hmore : more = []
      · subst hmore
        obtain ⟨offset, hoffset, c, hasks⟩ :=
          hback.asks [] back rfl (by simpa using hlost) (position + kept.length)
        refine ⟨offset, hoffset, c, ?_⟩
        have hread := hfront.reads position []
        rw [List.append_nil] at hread
        simp only [List.append_nil] at hread
        rw [bind_of_ok hread]
        exact hasks
      · obtain ⟨offset, hoffset, c, hasks⟩ := hfront.asks kept more rfl hmore position
        exact ⟨offset, hoffset, c, bind_of_error hasks⟩

theorem delimited_pure (a : α) : Delimited (pure a : Decoder α) := by
  rintro position bytes _ c ⟨⟩
  exact ⟨[], rfl, spans_nil (reads_pure a)⟩

theorem delimited_throw (fault : DescriptorFault) : Delimited (throw fault : Decoder α) := by
  rintro position bytes a c ⟨⟩

theorem Delimited.bind {reader : Decoder α} {next : α → Decoder β} (h : Delimited reader)
    (hnext : ∀ a, Delimited (next a)) : Delimited (reader >>= next) := by
  intro position bytes b c hok
  obtain ⟨a, ⟨position₁, rest⟩, hfirst, hsecond⟩ := bind_eq_ok hok
  obtain ⟨front, rfl, hfront⟩ := h _ _ _ _ hfirst
  obtain ⟨back, hrest, hback⟩ := hnext a _ _ _ _ hsecond
  rw [hrest]
  exact ⟨front ++ back, (List.append_assoc ..).symm, hfront.bind hback⟩

/-- A reader that may refuse what was read so far. -/
theorem delimited_refuse {p : Prop} [Decidable p] {fault : DescriptorFault}
    {next : Unit → Decoder α} (h : Delimited (next ())) :
    Delimited (if p then throw fault >>= next else next ()) := by
  split
  · exact (delimited_throw fault).bind fun _ => h
  · exact h

theorem Delimited.map {reader : Decoder α} (h : Delimited reader) (put : α → β) :
    Delimited (put <$> reader) := by
  rw [map_eq_pure_bind]
  exact h.bind fun a => delimited_pure (put a)

/-! ## Bytes, words and lists -/

theorem delimited_slice (n : Nat) : Delimited (slice n) := by
  intro position bytes a c hok
  obtain ⟨rfl, hbytes⟩ := slice_eq_ok hok
  refine ⟨a, hbytes, reads_slice a, ?_⟩
  intro front back hcut hback position
  have hshort : front.length < a.length := by
    have hpos := List.length_pos_iff.mpr hback
    rw [hcut, List.length_append]
    omega
  exact ⟨position, by omega, ⟨position, front⟩, slice_of_short hshort position⟩

theorem delimited_u1 : Delimited u1 := (delimited_slice 1).bind fun _ => delimited_pure _

theorem delimited_u2 : Delimited u2 := (delimited_slice 2).bind fun _ => delimited_pure _

theorem delimited_u4 : Delimited u4 := (delimited_slice 4).bind fun _ => delimited_pure _

theorem delimited_u8 : Delimited u8 :=
  delimited_u4.bind fun _ => delimited_u4.bind fun _ => delimited_pure _

theorem delimited_ofExcept (answer : Except DescriptorFault α) :
    Delimited (ofExcept answer : Decoder α) := by
  cases answer with
  | ok a => exact delimited_pure a
  | error fault => exact delimited_throw fault

theorem delimited_lookUp (look : UInt16 → Except DescriptorFault α) : Delimited (lookUp look) :=
  delimited_u2.bind fun index => delimited_ofExcept (look index)

theorem Delimited.times {reader : Decoder α} (h : Delimited reader) (n : Nat) :
    Delimited (times n reader) := by
  induction n with
  | zero => exact delimited_pure []
  | succ n ih => exact h.bind fun a => ih.bind fun rest => delimited_pure (a :: rest)

theorem Delimited.counted {reader : Decoder α} (h : Delimited reader) : Delimited (counted reader) :=
  delimited_u2.bind fun count => h.times count.toNat

/-- Bytes that are cut off already are read without a look at those behind them. -/
theorem delimited_within (bytes : Bytes) (reader : Decoder α) : Delimited (within bytes reader) := by
  intro position rest a c hok
  obtain ⟨hrun, rfl⟩ := within_eq_ok hok
  exact ⟨[], rfl, spans_nil (reads_within hrun)⟩

end Decoder

/-! ## The constants -/

open Decoder

theorem Constant.delimited_decode (index : UInt16) : Delimited (Constant.decode index) := by
  refine delimited_u1.bind fun tag => ?_
  split
  case h_1 => exact delimited_u2.bind fun n => (delimited_slice n.toNat).bind fun _ => delimited_pure _
  case h_2 | h_3 => exact delimited_u4.bind fun _ => delimited_pure _
  case h_4 | h_5 => exact delimited_u8.bind fun _ => delimited_pure _
  case h_6 | h_7 | h_13 | h_16 | h_17 => exact delimited_u2.bind fun _ => delimited_pure _
  case h_8 | h_9 | h_10 | h_11 | h_14 | h_15 =>
    exact delimited_u2.bind fun _ => delimited_u2.bind fun _ => delimited_pure _
  case h_12 => exact delimited_u1.bind fun _ => delimited_u2.bind fun _ => delimited_pure _
  case h_18 => exact delimited_throw _

namespace ConstantPool

theorem delimited_decodeEntries (todo : Nat) (entries : Array Constant) :
    Delimited (decodeEntries todo entries) := by
  induction todo, entries using decodeEntries.induct with
  | case1 entries => exact delimited_pure entries
  | case2 todo entries hwide hplain =>
    rw [decodeEntries]
    refine (Constant.delimited_decode _).bind fun c => ?_
    split
    · cases todo with
      | zero => exact delimited_pure _
      | succ todo => exact hwide c
    · exact hplain c

theorem delimited_decode : Delimited ConstantPool.decode :=
  delimited_u2.bind fun count =>
    (delimited_decodeEntries (count.toNat - 1) #[.unusable]).bind fun _ => delimited_pure _

end ConstantPool

/-! ## The descriptor -/

namespace Descriptor

variable (options : DecodeOptions) (pool : ConstantPool)

theorem delimited_attributes {σ : Type} (visit : String → σ → Decoder σ) (count : Nat) (known : σ) :
    Delimited (attributes pool visit count known) := by
  induction count generalizing known with
  | zero => exact delimited_pure known
  | succ count ih =>
    refine delimited_u2.bind fun index => delimited_u4.bind fun length => ?_
    refine (delimited_ofExcept (pool.text index)).bind fun name => ?_
    exact (delimited_slice length.toNat).bind fun body => (delimited_within body _).bind ih

theorem delimited_attributeTable {σ : Type} (visit : String → σ → Decoder σ) (known : σ) :
    Delimited (attributeTable pool visit known) :=
  delimited_u2.bind fun count => delimited_attributes pool visit count.toNat known

theorem delimited_className : Delimited (className pool) := (delimited_lookUp _).map _

theorem delimited_optionalClassName : Delimited (optionalClassName pool) :=
  (delimited_lookUp _).bind fun _ => delimited_pure _

theorem delimited_member {σ μ : Type} (visit : String → σ → Decoder σ)
    (bare : UInt16 → String → String → σ) (put : String → String → σ → μ) :
    Delimited (member pool visit bare put) := by
  refine delimited_u2.bind fun access => (delimited_lookUp _).bind fun name => ?_
  refine (delimited_lookUp _).bind fun descriptor => ?_
  exact (delimited_attributeTable pool _ _).bind fun known => delimited_pure _

theorem delimited_field : Delimited (field options pool) :=
  field_eq_member options pool ▸ delimited_member pool _ _ _

theorem delimited_method : Delimited (method options pool) :=
  method_eq_member options pool ▸ delimited_member pool _ _ _

theorem delimited_header : Delimited header := by
  refine delimited_u4.bind fun found => delimited_refuse ?_
  refine delimited_u2.bind fun minor => delimited_u2.bind fun major => ?_
  exact delimited_refuse (delimited_pure _)

theorem delimited_decodeBody (minor major : UInt16) : Delimited (decodeBody options minor major pool) := by
  refine delimited_u2.bind fun access => (delimited_className pool).bind fun name => ?_
  refine (delimited_optionalClassName pool).bind fun superclass => ?_
  refine (delimited_className pool).counted.bind fun interfaces => ?_
  refine (delimited_field options pool).counted.bind fun fields => ?_
  refine (delimited_method options pool).counted.bind fun methods => ?_
  refine (delimited_attributeTable pool _ _).bind fun r => ?_
  exact (delimited_ofExcept _).bind fun constants => delimited_pure _

theorem delimited_decodeClass : Delimited (decodeClass options) :=
  delimited_header.bind fun version => ConstantPool.delimited_decode.bind fun pool =>
    delimited_decodeBody options pool version.1 version.2

/-- A descriptor tells by itself where it ends: what stands behind makes no difference, and cut
off anywhere before its end it is refused for want of bytes, at a place that is there. -/
theorem a_descriptor_tells_where_it_ends {bytes : Bytes} {d : DecodedClass}
    (h : decode options bytes = .ok d) :
    ∃ n ≤ bytes.length, (∀ suffix, decode options (bytes.take n ++ suffix) = .ok d) ∧
      ∀ m < n, ∃ offset ≤ m, decode options (bytes.take m) = .error (.unexpectedEnd offset) := by
  obtain ⟨c, hread⟩ := run_eq_ok h
  obtain ⟨used, rfl, hspans⟩ := delimited_decodeClass options 0 bytes d c hread
  refine ⟨used.length, by simp, fun suffix => ?_, fun m hm => ?_⟩
  · rw [List.take_left]
    exact run_of_ok (hspans.reads 0 suffix)
  · have hcut : used.drop m ≠ [] := by simpa using hm
    obtain ⟨offset, hoffset, c', hasks⟩ :=
      hspans.asks (used.take m) (used.drop m) (List.take_append_drop m used).symm hcut 0
    have hlength : (used.take m).length = m := by
      rw [List.length_take]
      omega
    refine ⟨offset, by omega, ?_⟩
    rw [List.take_append_of_le_length (by omega)]
    exact run_of_error hasks

/-- A crate with two bytes behind it. -/
theorem a_crate_tells_where_it_ends :
    ∃ d, decode ⟨true⟩ (encode crate ++ [7, 7]) = .ok d ∧
      ∃ n ≤ (encode crate ++ [7, 7]).length,
        (∀ suffix, decode ⟨true⟩ ((encode crate ++ [7, 7]).take n ++ suffix) = .ok d) ∧
          ∀ m < n, ∃ offset ≤ m,
            decode ⟨true⟩ ((encode crate ++ [7, 7]).take m) = .error (.unexpectedEnd offset) := by
  have haccepted : (decode ⟨true⟩ (encode crate ++ [7, 7])).toOption.isSome = true := by
    decide +kernel
  obtain ⟨d, hd⟩ := Option.isSome_iff_exists.mp haccepted
  have h := ok_of_toOption hd
  exact ⟨d, h, a_descriptor_tells_where_it_ends ⟨true⟩ h⟩

end Descriptor

end ClassAtlas
