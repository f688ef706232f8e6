-- UTF-8 text as byte strings. Reading is strict: an overlong form, a surrogate or a
-- number beyond the last code point is no text. A second reader puts the replacement
-- character in the place of each broken part and always succeeds.
import ClassAtlas.Bytes

namespace ClassAtlas.Utf8

/-! ## Writing -/

/-- How many bytes a text takes. -/
def length (text : List Char) : Nat := (text.map Char.utf8Size).foldr (· + ·) 0

/-- A continuation byte that holds six bits of `n`. -/
def trail (n : Nat) : UInt8 := UInt8.ofNat (0x80 + n % 0x40)

/-- The bytes of a text. -/
def encode (text : List Char) : Bytes := text.flatMap String.utf8EncodeChar

/-! ## Strict reading -/

/-- A byte that carries on a character: its top bits are `10`. -/
def isTrail (b : UInt8) : Bool := 0x80 ≤ b && b ≤ 0xBF

/-- The six bits that a continuation byte holds. -/
def low (b : UInt8) : Nat := b.toNat % 0x40

/-- Whether `b` may follow the lead byte `a` of a form of three bytes: `E0` bars the
overlong forms and `ED` the surrogates. -/
def fitsThree (a b : UInt8) : Bool :=
  if a = 0xE0 then 0xA0 ≤ b && b ≤ 0xBF
  else if a = 0xED then 0x80 ≤ b && b ≤ 0x9F
  else isTrail b

/-- Whether `b` may follow the lead byte `a` of a form of four bytes: `F0` bars the
overlong forms and `F4` the numbers beyond the last code point. -/
def fitsFour (a b : UInt8) : Bool :=
  if a = 0xF0 then 0x90 ≤ b && b ≤ 0xBF
  else if a = 0xF4 then 0x80 ≤ b && b ≤ 0x8F
  else isTrail b

/-- What stands at the front of a byte string that is not empty: a character with the
number of its bytes, or a broken part with its length. -/
inductive Head
  | char (c : Char) (size : Nat)
  | broken (size : Nat)

/-- The first character of a byte string, or the longest start of one that is broken. -/
def head (a : UInt8) (rest : Bytes) : Head :=
  if a < 0x80 then .char (Char.ofNat a.toNat) 1
  else if 0xC2 ≤ a && a ≤ 0xDF then
    match rest with
    | b :: _ => if isTrail b then .char (Char.ofNat (a.toNat % 0x20 * 0x40 + low b)) 2 else .broken 1
    | [] => .broken 1
  else if 0xE0 ≤ a && a ≤ 0xEF then
    match rest with
    | b :: r =>
      if fitsThree a b then
        match r with
        | c :: _ =>
          if isTrail c then
            .char (Char.ofNat (a.toNat % 0x10 * 0x1000 + low b * 0x40 + low c)) 3
          else .broken 2
        | [] => .broken 2
      else .broken 1
    | [] => .broken 1
  else if 0xF0 ≤ a && a ≤ 0xF4 then
    match rest with
    | b :: r =>
      if fitsFour a b then
        match r with
        | c :: s =>
          if isTrail c then
            match s with
            | d :: _ =>
              if isTrail d then
                .char (Char.ofNat
                  (a.toNat % 0x08 * 0x40000 + low b * 0x1000 + low c * 0x40 + low d)) 4
              else .broken 3
            | [] => .broken 3
          else .broken 2
        | [] => .broken 2
      else .broken 1
    | [] => .broken 1
  else .broken 1

/-- Reads with at most `fuel` characters; a byte string never needs more than its length. -/
def decodeWith : Nat → Bytes → Option (List Char)
  | _, [] => some []
  | 0, _ :: _ => none
  | fuel + 1, a :: rest =>
    match head a rest with
    | .char c size => (decodeWith fuel ((a :: rest).drop size)).map (c :: ·)
    | .broken _ => none

/-- The text of a byte string, if all of it is well formed. -/
def decode? (bytes : Bytes) : Option (List Char) := decodeWith bytes.length bytes

/-! ## Lenient reading -/

/-- The replacement character. -/
def replacement : Char := Char.ofNat 0xFFFD

/-- Reads with at most `fuel` steps, one replacement character for each broken part. -/
def decodeLossyWith : Nat → Bytes → List Char
  | _, [] => []
  | 0, _ :: _ => []
  | fuel + 1, a :: rest =>
    match head a rest with
    | .char c size => c :: decodeLossyWith fuel ((a :: rest).drop size)
    | .broken size => replacement :: decodeLossyWith fuel ((a :: rest).drop size)

/-- The text of a byte string, each broken part read as the replacement character. -/
def decodeLossy (bytes : Bytes) : List Char := decodeLossyWith bytes.length bytes

end ClassAtlas.Utf8
