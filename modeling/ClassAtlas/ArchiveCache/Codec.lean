-- Values as bytes and back. A codec writes a value, and reads one from the front of some
-- bytes together with what follows it. Codecs of parts make codecs of pairs, lists and
-- whatever they stand for.
import ClassAtlas.Text.Utf8

namespace ClassAtlas

structure Codec (α : Type) where
  encode : α → Bytes
  /-- The value in front and the bytes behind it. -/
  decode : Bytes → Option (α × Bytes)

namespace Codec

variable {α β : Type}

/-- A codec is lawful if it reads back what it writes, whatever follows. -/
def Lawful (codec : Codec α) : Prop :=
  ∀ value rest, codec.decode (codec.encode value ++ rest) = some (value, rest)

/-- The value that some bytes hold, if nothing follows it. -/
def read? (codec : Codec α) (bytes : Bytes) : Option α :=
  match codec.decode bytes with
  | some (value, []) => some value
  | _ => none

/-! ## Numbers -/

/-- Writes a number in digits of seven bits, the lowest first. The top bit tells that more
digits follow. -/
def encodeNat (n : Nat) : Bytes :=
  if n < 128 then [UInt8.ofNat n] else UInt8.ofNat (128 + n % 128) :: encodeNat (n / 128)
termination_by n
decreasing_by omega

/-- Reads a number in digits of seven bits. -/
def decodeNat : Bytes → Option (Nat × Bytes)
  | [] => none
  | b :: rest =>
    if b.toNat < 128 then some (b.toNat, rest)
    else (decodeNat rest).map fun (high, rest) => (b.toNat - 128 + 128 * high, rest)

def nat : Codec Nat := ⟨encodeNat, decodeNat⟩

/-! ## Parts -/

/-- What stands for a value of another type. Some values may stand for nothing. -/
def through (codec : Codec α) (ofValue : β → α) (toValue? : α → Option β) : Codec β where
  encode value := codec.encode (ofValue value)
  decode bytes := do
    let (part, rest) ← codec.decode bytes
    return (← toValue? part, rest)

/-- What stands for a value of another type. -/
def map (codec : Codec α) (ofValue : β → α) (toValue : α → β) : Codec β :=
  codec.through ofValue fun part => some (toValue part)

def pair (first : Codec α) (second : Codec β) : Codec (α × β) where
  encode value := first.encode value.1 ++ second.encode value.2
  decode bytes := do
    let (a, rest) ← first.decode bytes
    let (b, rest) ← second.decode rest
    return ((a, b), rest)

/-- Reads so many values one after the other. -/
def decodeMany (codec : Codec α) : Nat → Bytes → Option (List α × Bytes)
  | 0, bytes => some ([], bytes)
  | n + 1, bytes => do
    let (value, rest) ← codec.decode bytes
    let (values, rest) ← decodeMany codec n rest
    return (value :: values, rest)

/-- A list is its length and then its values. -/
def list (codec : Codec α) : Codec (List α) where
  encode values := encodeNat values.length ++ values.flatMap codec.encode
  decode bytes := do
    let (length, rest) ← decodeNat bytes
    decodeMany codec length rest

/-- A byte string is its length and then its bytes. -/
def bytes : Codec Bytes where
  encode value := encodeNat value.length ++ value
  decode all := do
    let (length, rest) ← decodeNat all
    cut? length rest

end Codec

/-! ## Types that can be stored -/

class Storable (α : Type) where
  codec : Codec α

namespace Storable

variable {α β : Type}

/-- A value is stored as one of another type that stands for it. -/
abbrev via [Storable α] (ofValue : β → α) (toValue : α → β) : Storable β :=
  ⟨(codec : Codec α).map ofValue toValue⟩

instance : Storable Nat := ⟨Codec.nat⟩
instance : Storable String :=
  ⟨Codec.bytes.through (fun text => Utf8.encode text.toList)
    fun bytes => (Utf8.decode? bytes).map String.ofList⟩
instance [Storable α] [Storable β] : Storable (α × β) := ⟨codec.pair codec⟩
instance [Storable α] : Storable (List α) := ⟨codec.list⟩

end Storable

end ClassAtlas
