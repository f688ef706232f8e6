-- Readers that take exactly their own bytes. A reader that does so answers the same before
-- every suffix and at every place, so the readers of the parts of a descriptor put together
-- read the bytes of the parts put together.
import Mathlib.Algebra.GroupWithZero.Nat
import ClassAtlas.Descriptor.Constant
import ClassAtlas.Proofs.Words

namespace ClassAtlas.Decoder

open BigEndian (word16)

/-- The reader takes `bytes` off the front of whatever it is given and answers `a`. -/
def Reads {α : Type} (reader : Decoder α) (bytes : Bytes) (a : α) : Prop :=
  ∀ position rest, reader ⟨position, bytes ++ rest⟩ = .ok a ⟨position + bytes.length, rest⟩

variable {α β : Type}

/-! ## One step after another -/

theorem ok_of_toOption {answer : Except DescriptorFault α} {a : α} (h : answer.toOption = some a) :
    answer = .ok a := by
  cases answer with
  | error fault => cases h
  | ok b => exact congrArg Except.ok (Option.some.inj h)

section

variable {reader : Decoder α} {next : α → Decoder β} {c c' : Cursor}

theorem bind_of_ok {a : α} (h : reader c = .ok a c') : (reader >>= next) c = next a c' := by
  show EStateM.bind reader next c = _
  unfold EStateM.bind
  rw [h]

theorem bind_of_error {fault : DescriptorFault} (h : reader c = .error fault c') :
    (reader >>= next) c = .error fault c' := by
  show EStateM.bind reader next c = _
  unfold EStateM.bind
  rw [h]

/-- Both steps of a reader that accepts have accepted. -/
theorem bind_eq_ok {b : β} (h : (reader >>= next) c = .ok b c') :
    ∃ a c₁, reader c = .ok a c₁ ∧ next a c₁ = .ok b c' := by
  cases hfirst : reader c with
  | error fault c₁ =>
    rw [bind_of_error hfirst] at h
    cases h
  | ok a c₁ =>
    rw [bind_of_ok hfirst] at h
    exact ⟨a, c₁, rfl, h⟩

/-- A reader that may refuse what was read so far has not done so. -/
theorem refuse_eq_ok {p : Prop} [Decidable p] {fault : DescriptorFault} {next : Unit → Decoder α}
    {a : α} (h : (if p then throw fault >>= next else next ()) c = .ok a c') :
    ¬ p ∧ next () c = .ok a c' := by
  split at h
  · cases h
  · exact ⟨‹_›, h⟩

theorem run_of_ok {bytes : Bytes} {a : α} (h : reader (Cursor.ofBytes bytes) = .ok a c) :
    run reader bytes = .ok a := by
  unfold run
  rw [h]

theorem run_of_error {bytes : Bytes} {fault : DescriptorFault}
    (h : reader (Cursor.ofBytes bytes) = .error fault c) : run reader bytes = .error fault := by
  unfold run
  rw [h]

theorem run_eq_ok {bytes : Bytes} {a : α} (h : run reader bytes = .ok a) :
    ∃ c, reader (Cursor.ofBytes bytes) = .ok a c := by
  cases hread : reader (Cursor.ofBytes bytes) with
  | error fault c =>
    rw [run_of_error hread] at h
    cases h
  | ok b c =>
    rw [run_of_ok hread] at h
    cases h
    exact ⟨c, rfl⟩

theorem within_of_ok {bytes : Bytes} {a : α} (h : run reader bytes = .ok a) :
    within bytes reader c = .ok a c := by
  obtain ⟨c₁, hread⟩ := run_eq_ok h
  unfold within
  rw [hread]

theorem within_eq_ok {bytes : Bytes} {a : α} (h : within bytes reader c = .ok a c') :
    run reader bytes = .ok a ∧ c' = c := by
  unfold within at h
  cases hread : reader (Cursor.ofBytes bytes) with
  | error fault c₁ =>
    rw [hread] at h
    cases h
  | ok b c₁ =>
    rw [hread] at h
    cases h
    exact ⟨run_of_ok hread, rfl⟩

end

/-! ## Putting readers together -/

theorem reads_pure (a : α) : Reads (pure a) [] a := fun _ _ => rfl

theorem Reads.bind {reader : Decoder α} {next : α → Decoder β} {front back : Bytes} {a : α} {b : β}
    (hfront : Reads reader front a) (hback : Reads (next a) back b) :
    Reads (reader >>= next) (front ++ back) b := by
  intro position rest
  rw [List.append_assoc, bind_of_ok (hfront _ _), hback, List.length_append, Nat.add_assoc]

/-- The last step of a reader: what was read is put into its place. -/
theorem Reads.bind_pure {reader : Decoder α} {bytes : Bytes} {a : α} (put : α → β)
    (h : Reads reader bytes a) : Reads (reader >>= fun a => pure (put a)) bytes (put a) := by
  have hboth : Reads (reader >>= fun a => pure (put a)) (bytes ++ []) (put a) :=
    h.bind (reads_pure (put a))
  rwa [List.append_nil] at hboth

theorem Reads.map {reader : Decoder α} {bytes : Bytes} {a : α} (put : α → β)
    (h : Reads reader bytes a) : Reads (put <$> reader) bytes (put a) := by
  intro position rest
  show EStateM.map put reader _ = _
  unfold EStateM.map
  rw [h]

/-- Nothing is read by an answer that is there already. -/
theorem reads_ofExcept {answer : Except DescriptorFault α} {a : α} (h : answer = .ok a) :
    Reads (ofExcept answer) [] a := by
  subst h
  exact reads_pure a

/-! ## Bytes and words -/

theorem reads_slice (bytes : Bytes) : Reads (slice bytes.length) bytes bytes := by
  intro position rest
  simp [slice, cut?]

theorem reads_u1 (b : UInt8) : Reads u1 [b] b := by
  have h := (reads_slice [b]).bind_pure fun bytes => UInt8.ofNat (BigEndian.value bytes)
  have hvalue : UInt8.ofNat (BigEndian.value [b]) = b := by simp [BigEndian.value]
  rw [hvalue] at h
  exact h

theorem reads_u2 (n : Nat) : Reads u2 (BigEndian.bytes 2 n) (UInt16.ofNat n) := by
  have h := (reads_slice (BigEndian.bytes 2 n)).bind_pure fun bytes =>
    UInt16.ofNat (BigEndian.value bytes)
  have hvalue : UInt16.ofNat (n % 256 ^ 2) = UInt16.ofNat n := by
    apply UInt16.toNat_inj.mp
    simp
  rw [BigEndian.length_bytes, BigEndian.value_bytes, hvalue] at h
  exact h

theorem reads_u4 (n : Nat) : Reads u4 (BigEndian.bytes 4 n) (UInt32.ofNat n) := by
  have h := (reads_slice (BigEndian.bytes 4 n)).bind_pure fun bytes =>
    UInt32.ofNat (BigEndian.value bytes)
  have hvalue : UInt32.ofNat (n % 256 ^ 4) = UInt32.ofNat n := by
    apply UInt32.toNat_inj.mp
    simp
  rw [BigEndian.length_bytes, BigEndian.value_bytes, hvalue] at h
  exact h

theorem reads_word16 (n : UInt16) : Reads u2 (word16 n) n := by
  have h := reads_u2 n.toNat
  rwa [UInt16.ofNat_toNat] at h

theorem reads_word32 (n : UInt32) : Reads u4 (BigEndian.word32 n) n := by
  have h := reads_u4 n.toNat
  rwa [UInt32.ofNat_toNat] at h

/-- A word of eight bytes is read as its halves. -/
theorem reads_word64 (n : UInt64) : Reads u8 (BigEndian.word64 n) n := by
  have hlt := n.toNat_lt
  have h : Reads u8 (BigEndian.bytes 4 (n.toNat / 256 ^ 4) ++ BigEndian.bytes 4 n.toNat)
      (UInt64.ofNat ((UInt32.ofNat (n.toNat / 256 ^ 4)).toNat * 2 ^ 32 +
        (UInt32.ofNat n.toNat).toNat)) :=
    (reads_u4 _).bind ((reads_u4 _).bind_pure _)
  have hvalue : (UInt32.ofNat (n.toNat / 256 ^ 4)).toNat * 2 ^ 32 +
      (UInt32.ofNat n.toNat).toNat = n.toNat := by
    simp only [UInt32.toNat_ofNat']
    omega
  rw [hvalue, UInt64.ofNat_toNat, ← BigEndian.bytes_add] at h
  exact h

/-! ## What a reader has taken -/

section

variable {c c' : Cursor}

theorem slice_eq_ok {n : Nat} {front : Bytes} (h : slice n c = .ok front c') :
    front.length = n ∧ c.rest = front ++ c'.rest := by
  unfold slice cut? at h
  by_cases hlength : (c.rest.take n).length = n
  · simp only [hlength, if_true, EStateM.Result.ok.injEq] at h
    obtain ⟨rfl, rfl⟩ := h
    exact ⟨hlength, (List.take_append_drop n c.rest).symm⟩
  · simp only [hlength, if_false] at h
    cases h

theorem slice_of_short {n : Nat} {bytes : Bytes} (h : bytes.length < n) (position : Nat) :
    slice n ⟨position, bytes⟩ = .error (.unexpectedEnd position) ⟨position, bytes⟩ := by
  have hshort : (bytes.take n).length ≠ n := by
    rw [List.length_take]
    omega
  simp only [slice, cut?, hshort, if_false]

theorem u2_eq_ok {n : UInt16} (h : u2 c = .ok n c') : c.rest = word16 n ++ c'.rest := by
  obtain ⟨front, c₁, hslice, hpure⟩ := bind_eq_ok h
  obtain ⟨hlength, hrest⟩ := slice_eq_ok hslice
  cases hpure
  rw [hrest, BigEndian.word16_value hlength]

theorem u4_eq_ok {n : UInt32} (h : u4 c = .ok n c') : c.rest = BigEndian.word32 n ++ c'.rest := by
  obtain ⟨front, c₁, hslice, hpure⟩ := bind_eq_ok h
  obtain ⟨hlength, hrest⟩ := slice_eq_ok hslice
  cases hpure
  rw [hrest, BigEndian.word32_value hlength]

theorem ofExcept_eq_ok {answer : Except DescriptorFault α} {a : α}
    (h : (ofExcept answer : Decoder α) c = .ok a c') : answer = .ok a ∧ c' = c := by
  cases answer with
  | ok b =>
    cases h
    exact ⟨rfl, rfl⟩
  | error fault => cases h

end

/-! ## Look-up and repetition -/

theorem reads_lookUp {look : UInt16 → Except DescriptorFault α} {index : UInt16} {a : α}
    (h : look index = .ok a) : Reads (lookUp look) (word16 index) a := by
  have hboth : Reads (lookUp look) (word16 index ++ []) a :=
    (reads_word16 index).bind (reads_ofExcept h)
  rwa [List.append_nil] at hboth

theorem reads_times_zero (reader : Decoder α) : Reads (times 0 reader) [] [] := reads_pure _

theorem reads_times_succ {reader : Decoder α} {n : Nat} {front back : Bytes} {a : α} {rest : List α}
    (hfront : Reads reader front a) (hback : Reads (times n reader) back rest) :
    Reads (times (n + 1) reader) (front ++ back) (a :: rest) :=
  hfront.bind (hback.bind_pure _)

/-- A list with its count in front, if the count fits its two bytes. -/
theorem reads_counted {reader : Decoder α} {n : Nat} {bytes : Bytes} {items : List α}
    (hn : n ≤ 65535) (h : Reads (times n reader) bytes items) :
    Reads (counted reader) (word16 (UInt16.ofNat n) ++ bytes) items := by
  have hcount : (UInt16.ofNat n).toNat = n := by
    rw [UInt16.toNat_ofNat']
    omega
  refine (reads_word16 _).bind ?_
  rw [hcount]
  exact h

/-- A reader on bytes of its own leaves the cursor where it was, whether it takes all of them
or not. -/
theorem reads_within {reader : Decoder α} {body : Bytes} {a : α} (h : run reader body = .ok a) :
    Reads (within body reader) [] a := fun _ _ => within_of_ok h

/-- A reader accepts the bytes that it takes. -/
theorem Reads.run {reader : Decoder α} {bytes : Bytes} {a : α} (h : Reads reader bytes a) :
    run reader bytes = .ok a := by
  have hread := h 0 []
  rw [List.append_nil] at hread
  exact run_of_ok hread

end ClassAtlas.Decoder
