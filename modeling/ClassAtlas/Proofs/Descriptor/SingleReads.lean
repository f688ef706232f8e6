-- What single reads do to a cursor. A read takes exactly its bytes, or it fails where the cursor
-- stands and leaves it there; only a word of eight bytes of which no more than the first half is
-- there fails behind that half. Whatever is read, the cursor keeps its place in the bytes.
import Mathlib.Algebra.GroupWithZero.Nat
import ClassAtlas.Proofs.Descriptor.Reading

namespace ClassAtlas

/-! ## Reads and what they answer -/

/-- A read of a word or of some bytes, or a move past some bytes. -/
inductive SingleRead
  | u1
  | u2
  | u4
  | u8
  | slice (n : Nat)
  | skip (n : Nat)
deriving DecidableEq

inductive ReadAnswer
  | number (value : Nat)
  | bytes (bytes : Bytes)
  /-- The bytes were moved past. -/
  | passed
deriving DecidableEq

namespace SingleRead

/-- How many bytes a read asks for. -/
def width : SingleRead → Nat
  | u1 => 1
  | u2 => 2
  | u4 => 4
  | u8 => 8
  | slice n => n
  | skip n => n

/-- What a read makes of its bytes. The first byte of a word is the most significant one. -/
def answer : SingleRead → Bytes → ReadAnswer
  | slice _, front => .bytes front
  | skip _, _ => .passed
  | _, front => .number (BigEndian.value front)

def reader : SingleRead → Decoder ReadAnswer
  | u1 => return .number (← Decoder.u1).toNat
  | u2 => return .number (← Decoder.u2).toNat
  | u4 => return .number (← Decoder.u4).toNat
  | u8 => return .number (← Decoder.u8).toNat
  | slice n => return .bytes (← Decoder.slice n)
  | skip n => do
    Decoder.skip n
    return .passed

end SingleRead

/-! ## Runs -/

/-- A read, what it gave, and where the cursor stood before and after it. -/
structure ReadStep where
  read : SingleRead
  before : Cursor
  result : Except DescriptorFault ReadAnswer
  after : Cursor

def SingleRead.step (read : SingleRead) (c : Cursor) : ReadStep :=
  match read.reader c with
  | .ok a c' => ⟨read, c, .ok a, c'⟩
  | .error fault c' => ⟨read, c, .error fault, c'⟩

/-- The steps of some reads, one after the other. A read that fails does not end the run. -/
def readSteps : List SingleRead → Cursor → List ReadStep
  | [], _ => []
  | read :: rest, c => read.step c :: readSteps rest (read.step c).after

namespace ReadStep

/-- The read takes its bytes if they are there. If not, it fails where the cursor stands and
leaves it there. -/
structure Exact (s : ReadStep) : Prop where
  takes : s.read.width ≤ s.before.remaining →
    s.result = .ok (s.read.answer (s.before.rest.take s.read.width)) ∧
      s.after = ⟨s.before.position + s.read.width, s.before.rest.drop s.read.width⟩
  stays : s.before.remaining < s.read.width →
    s.result = .error (.unexpectedEnd s.before.position) ∧ s.after = s.before

/-- Of the eight bytes of a word the first four are there, and not all of the others. -/
structure HalfThere (s : ReadStep) : Prop where
  read_eq : s.read = .u8
  first : 4 ≤ s.before.remaining
  second : s.before.remaining < 8

/-- The read fails four bytes on and leaves the cursor there. -/
structure FailsBehindHalf (s : ReadStep) : Prop where
  result_eq : s.result = .error (.unexpectedEnd (s.before.position + 4))
  after_eq : s.after = ⟨s.before.position + 4, s.before.rest.drop 4⟩

end ReadStep

/-- The cursor stands somewhere in the bytes, and what follows there is still to be read. -/
structure Cursor.LiesIn (c : Cursor) (bytes : Bytes) : Prop where
  position_le : c.position ≤ bytes.length
  position_add_remaining : c.position + c.remaining = bytes.length
  rest_eq : c.rest = bytes.drop c.position

theorem Cursor.liesIn_ofBytes (bytes : Bytes) : (Cursor.ofBytes bytes).LiesIn bytes where
  position_le := Nat.zero_le _
  position_add_remaining := Nat.zero_add _
  rest_eq := rfl

theorem Cursor.LiesIn.moved {c : Cursor} {bytes : Bytes} (h : c.LiesIn bytes) {n : Nat}
    (hn : n ≤ c.remaining) : Cursor.LiesIn ⟨c.position + n, c.rest.drop n⟩ bytes := by
  have htotal := h.position_add_remaining
  have hrest : Cursor.remaining ⟨c.position + n, c.rest.drop n⟩ = c.remaining - n :=
    List.length_drop
  refine ⟨?_, ?_, ?_⟩
  · show c.position + n ≤ bytes.length
    omega
  · show c.position + n + _ = bytes.length
    omega
  · show c.rest.drop n = bytes.drop (c.position + n)
    rw [h.rest_eq, List.drop_drop]

/-! ## One read -/

namespace SingleRead

open Decoder

variable {read : SingleRead} {c : Cursor} {front : Bytes}

/-- A read takes as many bytes as it asks for. -/
theorem reads_reader (h : front.length = read.width) : Reads read.reader front (read.answer front) := by
  cases read with
  | u1 =>
    obtain ⟨b, rfl⟩ := List.length_eq_one_iff.mp h
    have hvalue : BigEndian.value [b] = b.toNat := by simp [BigEndian.value]
    have hread := (reads_u1 b).bind_pure fun w => ReadAnswer.number w.toNat
    rwa [← hvalue] at hread
  | u2 =>
    -- the bytes are those of the word that they spell
    have hread := (reads_word16 (UInt16.ofNat (BigEndian.value front))).bind_pure
      fun w => ReadAnswer.number w.toNat
    rwa [BigEndian.toNat_value16 h, BigEndian.word16_value h] at hread
  | u4 =>
    have hread := (reads_word32 (UInt32.ofNat (BigEndian.value front))).bind_pure
      fun w => ReadAnswer.number w.toNat
    rwa [BigEndian.toNat_value32 h, BigEndian.word32_value h] at hread
  | u8 =>
    have hread := (reads_word64 (UInt64.ofNat (BigEndian.value front))).bind_pure
      fun w => ReadAnswer.number w.toNat
    rwa [BigEndian.toNat_value64 h, BigEndian.word64_value h] at hread
  | slice n =>
    obtain rfl : front.length = n := h
    exact (reads_slice front).bind_pure _
  | skip n =>
    obtain rfl : front.length = n := h
    exact ((reads_slice front).bind_pure fun _ => ()).bind_pure fun _ => ReadAnswer.passed

theorem reader_of_le (h : read.width ≤ c.remaining) :
    read.reader c = .ok (read.answer (c.rest.take read.width))
      ⟨c.position + read.width, c.rest.drop read.width⟩ := by
  have hlength : (c.rest.take read.width).length = read.width := List.length_take_of_le h
  have hread := reads_reader hlength c.position (c.rest.drop read.width)
  rwa [List.take_append_drop, hlength] at hread

/-- A reader that begins with a slice fails with it. -/
theorem slice_bind_of_short {α : Type} {n : Nat} (next : Bytes → Decoder α) (h : c.remaining < n) :
    (Decoder.slice n >>= next) c = .error (.unexpectedEnd c.position) c :=
  bind_of_error (slice_of_short h c.position)

theorem u4_of_short (h : c.remaining < 4) : Decoder.u4 c = .error (.unexpectedEnd c.position) c :=
  slice_bind_of_short _ h

theorem reader_of_short (h : c.remaining < read.width) (hhalf : read = .u8 → c.remaining < 4) :
    read.reader c = .error (.unexpectedEnd c.position) c := by
  cases read with
  | u1 | u2 | u4 | skip n => exact bind_of_error (slice_bind_of_short _ h)
  | u8 => exact bind_of_error (bind_of_error (u4_of_short (hhalf rfl)))
  | slice n => exact slice_bind_of_short _ h

theorem u8_of_half (hfirst : 4 ≤ c.remaining) (hsecond : c.remaining < 8) :
    SingleRead.u8.reader c = .error (.unexpectedEnd (c.position + 4))
      ⟨c.position + 4, c.rest.drop 4⟩ := by
  have hlength : (c.rest.take 4).length = 4 := List.length_take_of_le hfirst
  have hread := reads_word32 (UInt32.ofNat (BigEndian.value (c.rest.take 4))) c.position (c.rest.drop 4)
  rw [BigEndian.word32_value hlength, List.take_append_drop, hlength] at hread
  have hrest : Cursor.remaining ⟨c.position + 4, c.rest.drop 4⟩ < 4 := by
    rw [Cursor.remaining, List.length_drop]
    unfold Cursor.remaining at hsecond
    omega
  -- the first half is taken, and the second one is asked for where it ends
  refine bind_of_error ?_
  unfold Decoder.u8
  rw [bind_of_ok hread]
  exact bind_of_error (u4_of_short hrest)

@[simp]
theorem step_read (read : SingleRead) (c : Cursor) : (read.step c).read = read := by
  rw [step]
  split <;> rfl

@[simp]
theorem step_before (read : SingleRead) (c : Cursor) : (read.step c).before = c := by
  rw [step]
  split <;> rfl

theorem step_of_ok {a : ReadAnswer} {c' : Cursor} (h : read.reader c = .ok a c') :
    read.step c = ⟨read, c, .ok a, c'⟩ := by
  rw [step, h]

theorem step_of_error {fault : DescriptorFault} {c' : Cursor} (h : read.reader c = .error fault c') :
    read.step c = ⟨read, c, .error fault, c'⟩ := by
  rw [step, h]

/-- What can become of a read: its bytes are there, or they are not, or half of them is. -/
theorem step_cases (read : SingleRead) (c : Cursor) :
    (read.width ≤ c.remaining ∧
      read.step c = ⟨read, c, .ok (read.answer (c.rest.take read.width)),
        ⟨c.position + read.width, c.rest.drop read.width⟩⟩) ∨
    (c.remaining < read.width ∧ (read = .u8 → c.remaining < 4) ∧
      read.step c = ⟨read, c, .error (.unexpectedEnd c.position), c⟩) ∨
    (read = .u8 ∧ 4 ≤ c.remaining ∧ c.remaining < 8 ∧
      read.step c = ⟨read, c, .error (.unexpectedEnd (c.position + 4)),
        ⟨c.position + 4, c.rest.drop 4⟩⟩) := by
  rcases Nat.lt_or_ge c.remaining read.width with hshort | hle
  · by_cases hhalf : read = .u8 ∧ 4 ≤ c.remaining
    · obtain ⟨rfl, hfirst⟩ := hhalf
      exact .inr (.inr ⟨rfl, hfirst, hshort, step_of_error (u8_of_half hfirst hshort)⟩)
    · have hnone : read = .u8 → c.remaining < 4 := fun hread =>
        Nat.lt_of_not_le fun hfirst => hhalf ⟨hread, hfirst⟩
      exact .inr (.inl ⟨hshort, hnone, step_of_error (reader_of_short hshort hnone)⟩)
  · exact .inl ⟨hle, step_of_ok (reader_of_le hle)⟩

theorem step_liesIn {bytes : Bytes} (h : c.LiesIn bytes) : (read.step c).after.LiesIn bytes := by
  obtain ⟨hle, heq⟩ | ⟨-, -, heq⟩ | ⟨-, hfirst, -, heq⟩ := step_cases read c <;> rw [heq]
  · exact h.moved hle
  · exact h
  · exact h.moved hfirst

theorem step_exact (h : ¬ (read.step c).HalfThere) : (read.step c).Exact := by
  obtain ⟨hle, heq⟩ | ⟨hshort, -, heq⟩ | ⟨hread, hfirst, hsecond, heq⟩ := step_cases read c <;>
    rw [heq] at h ⊢
  · exact ⟨fun _ => ⟨rfl, rfl⟩, fun hshort => absurd hle (Nat.not_le.mpr hshort)⟩
  · exact ⟨fun hle => absurd hle (Nat.not_le.mpr hshort), fun _ => ⟨rfl, rfl⟩⟩
  · exact absurd ⟨hread, hfirst, hsecond⟩ h

theorem step_failsBehindHalf (h : (read.step c).HalfThere) : (read.step c).FailsBehindHalf := by
  obtain ⟨hle, heq⟩ | ⟨-, hnone, heq⟩ | ⟨-, -, -, heq⟩ := step_cases read c <;> rw [heq] at h ⊢
  · obtain ⟨rfl, -, hsecond⟩ := h
    exact absurd hle (Nat.not_le.mpr hsecond)
  · exact absurd h.first (Nat.not_le.mpr (hnone h.read_eq))
  · exact ⟨rfl, rfl⟩

end SingleRead

/-- A read that fails behind half of a word is not exact. -/
theorem ReadStep.FailsBehindHalf.not_exact {s : ReadStep} (h : s.FailsBehindHalf)
    (hhalf : s.HalfThere) : ¬ s.Exact := by
  intro hexact
  have hshort : s.before.remaining < s.read.width := by
    rw [hhalf.read_eq]
    exact hhalf.second
  have hafter := (hexact.stays hshort).2
  rw [h.after_eq] at hafter
  have hposition : s.before.position + 4 = s.before.position := congrArg Cursor.position hafter
  omega

/-! ## Any run -/

theorem map_read_readSteps (reads : List SingleRead) (c : Cursor) :
    (readSteps reads c).map ReadStep.read = reads := by
  induction reads generalizing c with
  | nil => rfl
  | cons read rest ih =>
    rw [readSteps, List.map_cons, SingleRead.step_read, ih]

/-- Each step of a run is a step of its read from where the one before it left the cursor, and
the cursor never leaves the bytes. -/
theorem step_of_mem_readSteps {reads : List SingleRead} {c : Cursor} {bytes : Bytes} {s : ReadStep}
    (hin : c.LiesIn bytes) (h : s ∈ readSteps reads c) :
    s.before.LiesIn bytes ∧ s = s.read.step s.before := by
  induction reads generalizing c with
  | nil => cases h
  | cons read rest ih =>
    rcases List.mem_cons.mp h with rfl | htail
    · rw [SingleRead.step_read, SingleRead.step_before]
      exact ⟨hin, rfl⟩
    · exact ih (SingleRead.step_liesIn hin) htail

/-- In any run of reads, failed ones included, the cursor keeps its place in the bytes, and a read
is exact unless half of a word of eight bytes is there: then it fails behind that half. -/
theorem reads_are_exact_but_for_half_a_long_word (bytes : Bytes) (reads : List SingleRead) :
    (readSteps reads (Cursor.ofBytes bytes)).map ReadStep.read = reads ∧
      ∀ s ∈ readSteps reads (Cursor.ofBytes bytes),
        s.before.LiesIn bytes ∧ s.after.LiesIn bytes ∧
          (s.Exact ↔ ¬ s.HalfThere) ∧ (s.HalfThere → s.FailsBehindHalf) := by
  refine ⟨map_read_readSteps reads _, fun s hs => ?_⟩
  obtain ⟨hbefore, heq⟩ := step_of_mem_readSteps (Cursor.liesIn_ofBytes bytes) hs
  have hhalf : s.HalfThere → s.FailsBehindHalf := by
    rw [heq]
    exact SingleRead.step_failsBehindHalf
  refine ⟨hbefore, ?_, ⟨fun hexact h => (hhalf h).not_exact h hexact, ?_⟩, hhalf⟩
  · rw [heq]
    exact SingleRead.step_liesIn hbefore
  · rw [heq]
    exact SingleRead.step_exact

/-- A word that is read, bytes that are not there, and the last byte, which is read all the same. -/
theorem a_read_goes_on_behind_a_failed_one :
    ∃ s ∈ readSteps [.u2, .slice 2, .u1] (Cursor.ofBytes [1, 2, 3]),
      s.read = .slice 2 ∧ s.Exact ∧ s.after.LiesIn [1, 2, 3] := by
  have hrun := (reads_are_exact_but_for_half_a_long_word [1, 2, 3] [.u2, .slice 2, .u1]).2
  let s : ReadStep := ⟨.slice 2, ⟨2, [3]⟩, .error (.unexpectedEnd 2), ⟨2, [3]⟩⟩
  have hs : s ∈ readSteps [.u2, .slice 2, .u1] (Cursor.ofBytes [1, 2, 3]) :=
    List.mem_cons_of_mem _ List.mem_cons_self
  obtain ⟨-, hafter, hexact, -⟩ := hrun s hs
  exact ⟨s, hs, rfl, hexact.mpr (fun h => nomatch h.read_eq), hafter⟩

/-- Of the eight bytes of a word five are there. The read fails, but not at their start, and the
cursor does not stay there. -/
theorem half_of_a_long_word_is_passed :
    ∃ s ∈ readSteps [.u8] (Cursor.ofBytes [0, 0, 0, 0, 0]),
      s.before = ⟨0, [0, 0, 0, 0, 0]⟩ ∧ s.result = .error (.unexpectedEnd 4) ∧
        s.after = ⟨4, [0]⟩ ∧ ¬ s.Exact := by
  let s : ReadStep := ⟨.u8, ⟨0, [0, 0, 0, 0, 0]⟩, .error (.unexpectedEnd 4), ⟨4, [0]⟩⟩
  have hhalf : s.HalfThere := ⟨rfl, by decide, by decide⟩
  have hfails : s.FailsBehindHalf := ⟨rfl, rfl⟩
  exact ⟨s, List.mem_cons_self, rfl, rfl, rfl, hfails.not_exact hhalf⟩

end ClassAtlas
