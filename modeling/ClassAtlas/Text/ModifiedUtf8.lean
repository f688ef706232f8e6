-- The text form of a class descriptor: each UTF-16 unit is written on its own in one to
-- three bytes, and the zero unit in two, so that no byte of a text is zero. A character
-- beyond the first 65536 code points is a pair of units, the surrogates.
-- Reading never fails. A byte string that is plain UTF-8 is read as such, and a surrogate
-- without its partner as the replacement character.
import ClassAtlas.Text.Utf8

/-! ## Units -/

namespace ClassAtlas.Utf16

/-- The units of one character: one, or a pair of surrogates. -/
def unitsOfChar (c : Char) : List UInt16 :=
  let n := c.toNat
  if n < 0x10000 then [UInt16.ofNat n]
  else [UInt16.ofNat (0xD800 + (n - 0x10000) / 0x400), UInt16.ofNat (0xDC00 + (n - 0x10000) % 0x400)]

/-- The units of a text. -/
def encode (text : List Char) : List UInt16 := text.flatMap unitsOfChar

/-- The first unit of a pair. -/
def isHigh (u : UInt16) : Bool := 0xD800 ≤ u && u ≤ 0xDBFF

/-- The second unit of a pair. -/
def isLow (u : UInt16) : Bool := 0xDC00 ≤ u && u ≤ 0xDFFF

/-- The character of a unit that stands alone. A surrogate gives the replacement character. -/
def charOfUnit (u : UInt16) : Char :=
  if isHigh u || isLow u then Utf8.replacement else Char.ofNat u.toNat

/-- The character of a pair of surrogates. -/
def charOfPair (high low : UInt16) : Char :=
  Char.ofNat (0x10000 + (high.toNat - 0xD800) * 0x400 + (low.toNat - 0xDC00))

/-- The text of a list of units. A surrogate without its partner gives the replacement
character. -/
def decodeLossy : List UInt16 → List Char
  | [] => []
  | [u] => [charOfUnit u]
  | u :: v :: rest =>
    if isHigh u && isLow v then charOfPair u v :: decodeLossy rest
    else charOfUnit u :: decodeLossy (v :: rest)

end ClassAtlas.Utf16

namespace ClassAtlas.ModifiedUtf8

/-! ## Writing -/

/-- The bytes of one unit. The zero unit takes two. -/
def encodeUnit (u : UInt16) : Bytes :=
  let n := u.toNat
  if 0 < n && n < 0x80 then [UInt8.ofNat n]
  else if n < 0x800 then [UInt8.ofNat (0xC0 + n / 0x40), Utf8.trail n]
  else [UInt8.ofNat (0xE0 + n / 0x1000), Utf8.trail (n / 0x40), Utf8.trail n]

/-- The bytes of a text. -/
def encode (text : String) : Bytes := (Utf16.encode text.toList).flatMap encodeUnit

/-! ## Reading -/

/-- The units of a byte string. The top bits of a byte tell how many bytes its unit takes;
the bytes after it are not looked at. A byte that starts no unit gives `FFFD`. -/
def units : Bytes → List UInt16
  | [] => []
  | a :: rest =>
    if a.toNat < 0x80 then UInt16.ofNat a.toNat :: units rest
    else if a.toNat / 0x20 = 0x06 then
      match rest with
      | b :: r => UInt16.ofNat (a.toNat % 0x20 * 0x40 + Utf8.low b) :: units r
      | [] => [0xFFFD]
    else if a.toNat / 0x10 = 0x0E then
      match rest with
      | b :: c :: r =>
        UInt16.ofNat (a.toNat % 0x10 * 0x1000 + Utf8.low b * 0x40 + Utf8.low c) :: units r
      | b :: r => 0xFFFD :: units (b :: r)
      | [] => [0xFFFD]
    else 0xFFFD :: units rest

/-- Reads unit by unit. -/
def decodeUnits (bytes : Bytes) : List Char := Utf16.decodeLossy (units bytes)

/-- The text of a byte string: as plain UTF-8 where it is well formed, else unit by unit. -/
def decode (bytes : Bytes) : String :=
  String.ofList ((Utf8.decode? bytes).getD (decodeUnits bytes))

end ClassAtlas.ModifiedUtf8
