-- Byte strings and words written with the most significant byte first.
-- A word of a fixed width is written and read back without loss.

namespace ClassAtlas

/-- A byte string. -/
abbrev Bytes := List UInt8

namespace BigEndian

/-- The number that the bytes spell, the first byte being the most significant. -/
def value (bytes : Bytes) : Nat := bytes.foldl (fun n b => n * 256 + b.toNat) 0

/-- The last `width` bytes of a number. -/
def bytes : Nat → Nat → Bytes
  | 0, _ => []
  | width + 1, n => bytes width (n / 256) ++ [UInt8.ofNat n]

/-- The two bytes of a 16-bit word. -/
def word16 (n : UInt16) : Bytes := bytes 2 n.toNat

/-- The four bytes of a 32-bit word. -/
def word32 (n : UInt32) : Bytes := bytes 4 n.toNat

/-- The eight bytes of a 64-bit word. -/
def word64 (n : UInt64) : Bytes := bytes 8 n.toNat

end BigEndian

namespace LittleEndian

/-- The number that the bytes spell, the first byte being the least significant. -/
def value (bytes : Bytes) : Nat := BigEndian.value bytes.reverse

end LittleEndian

/-- The first `n` elements of a list and what follows them, if it has as many. -/
def cut? {α : Type} (n : Nat) (l : List α) : Option (List α × List α) :=
  let front := l.take n
  if front.length = n then some (front, l.drop n) else none

end ClassAtlas
