-- A cursor over bytes. Each read gives the next bytes and moves past them, or fails at
-- the place where the cursor stands. A word of eight bytes is read as two of four.
import ClassAtlas.Descriptor.Fault

namespace ClassAtlas

/-- A place in a byte string. -/
structure Cursor where
  /-- How many bytes lie before it. -/
  position : Nat
  /-- The bytes that lie after it. -/
  rest : Bytes
deriving DecidableEq

/-- The cursor at the start of a byte string. -/
def Cursor.ofBytes (bytes : Bytes) : Cursor := ⟨0, bytes⟩

/-- How many bytes are still to be read. -/
def Cursor.remaining (c : Cursor) : Nat := c.rest.length

/-- A reader moves a cursor. When it fails it tells why, and the cursor stays where the
failing read found it. -/
abbrev Decoder := EStateM DescriptorFault Cursor

namespace Decoder

/-- The next `n` bytes. -/
def slice (n : Nat) : Decoder Bytes := fun c =>
  match cut? n c.rest with
  | some (front, rest) => .ok front ⟨c.position + n, rest⟩
  | none => .error (.unexpectedEnd c.position) c

/-- Moves past the next `n` bytes. -/
def skip (n : Nat) : Decoder Unit := do
  let _ ← slice n

/-- The next byte. -/
def u1 : Decoder UInt8 := do
  let bytes ← slice 1
  return UInt8.ofNat (BigEndian.value bytes)

/-- The next two bytes as a word. -/
def u2 : Decoder UInt16 := do
  let bytes ← slice 2
  return UInt16.ofNat (BigEndian.value bytes)

/-- The next four bytes as a word. -/
def u4 : Decoder UInt32 := do
  let bytes ← slice 4
  return UInt32.ofNat (BigEndian.value bytes)

/-- The next eight bytes as a word, read as two halves of four. -/
def u8 : Decoder UInt64 := do
  let high ← u4
  let low ← u4
  return UInt64.ofNat (high.toNat * Nat.pow 2 32 + low.toNat)

/-- Reads an index of two bytes and looks it up. -/
def lookUp {α : Type} (look : UInt16 → Except DescriptorFault α) : Decoder α := do
  let index ← u2
  ofExcept (look index)

/-- Runs a reader `n` times. -/
def times {α : Type} (n : Nat) (reader : Decoder α) : Decoder (List α) :=
  match n with
  | 0 => return []
  | n + 1 => do
    let a ← reader
    let rest ← times n reader
    return a :: rest

/-- A count in two bytes and then as many items. -/
def counted {α : Type} (reader : Decoder α) : Decoder (List α) := do
  let count ← u2
  times count.toNat reader

/-- Runs a reader on bytes of its own, counted from their start. The cursor stays. -/
def within {α : Type} (bytes : Bytes) (reader : Decoder α) : Decoder α := fun c =>
  match reader (Cursor.ofBytes bytes) with
  | .ok a _ => .ok a c
  | .error fault _ => .error fault c

/-- The answer of a reader from the start of a byte string. -/
def run {α : Type} (reader : Decoder α) (bytes : Bytes) : Except DescriptorFault α :=
  match reader (Cursor.ofBytes bytes) with
  | .ok a _ => .ok a
  | .error fault _ => .error fault

end Decoder

end ClassAtlas
