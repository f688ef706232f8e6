-- Zip archives. The directory at the end of an archive lists its entries; each entry has
-- its own header and its bytes, stored as they are or deflated. Bytes in front of an
-- archive shift all its places, and the directory is found from the end.
import ClassAtlas.Archive.Inflate
import ClassAtlas.Text.Utf8

/-! ## Names

Old archives name their entries in a character set of ASCII and 128 further characters. -/

namespace ClassAtlas.CodePage437

/-- The characters of the bytes from 128 on. -/
def upper : Array Char :=
  ("ÇüéâäàåçêëèïîìÄÅÉæÆôöòûùÿÖÜ¢£¥₧ƒáíóúñÑªº¿⌐¬½¼¡«»░▒▓│┤╡╢╖╕╣║╗╝╜╛┐" ++
    "└┴┬├─┼╞╟╚╔╩╦╠═╬╧╨╤╥╙╘╒╓╫╪┘┌█▄▌▐▀αßΓπΣσµτΦΘΩδ∞φε∩≡±≥≤⌠⌡÷≈°∙·√ⁿ²■\u00a0").toList.toArray

/-- The character of a byte. -/
def charOfByte (b : UInt8) : Char :=
  if b < 0x80 then Char.ofNat b.toNat else upper.getD (b.toNat - 0x80) '?'

/-- The text of some bytes. -/
def decode (bytes : Bytes) : String := String.ofList (bytes.map charOfByte)

end ClassAtlas.CodePage437

/-! ## Checksums

A checksum is the remainder of a division of polynomials over two elements, with all bits in
reverse. -/

namespace ClassAtlas.Checksum

/-- The polynomial, its lowest coefficient in the top bit. -/
def polynomial : UInt32 := 0xEDB88320

/-- A remainder after one more bit. -/
def shift (r : UInt32) : UInt32 := if r &&& 1 = 1 then (r >>> 1) ^^^ polynomial else r >>> 1

/-- A remainder after eight more bits. -/
def step (r : UInt32) (b : UInt8) : UInt32 :=
  let r := r ^^^ b.toUInt32
  shift (shift (shift (shift (shift (shift (shift (shift r)))))))

/-- The checksum of some bytes. -/
def ofBytes (bytes : Bytes) : UInt32 := bytes.foldl step 0xFFFFFFFF ^^^ 0xFFFFFFFF

end ClassAtlas.Checksum

namespace ClassAtlas.Zip

/-! ## Fields -/

/-- An archive as an array of bytes. -/
abbrev Data := Array UInt8

/-- Some bytes of an archive, if it has as many. -/
def slice? (data : Data) (start size : Nat) : Option Bytes :=
  if start + size ≤ data.size then some (data.extract start (start + size)).toList else none

/-- The number in some bytes of an archive, the lowest byte first. -/
def number? (data : Data) (start size : Nat) : Option Nat :=
  (slice? data start size).map LittleEndian.value

/-- A word that is full of ones: its value stands in a longer field elsewhere. -/
def full (bytes : Nat) : Nat := Nat.pow 256 bytes - 1

/-! ## The end of the directory -/

/-- What the end of an archive tells about its directory. -/
structure EndRecord where
  position : Nat
  disk : Nat
  startDisk : Nat
  entriesHere : Nat
  entries : Nat
  size : Nat
  offset : Nat
  commentLength : Nat

/-- The size of an end record without its comment. -/
def endSize : Nat := 22

/-- The end record at a position. -/
def endRecordAt (data : Data) (position : Nat) : Option EndRecord := do
  let field := fun start size => number? data (position + start) size
  let r : EndRecord := {
    position
    disk := ← field 4 2
    startDisk := ← field 6 2
    entriesHere := ← field 8 2
    entries := ← field 10 2
    size := ← field 12 4
    offset := ← field 16 4
    commentLength := ← field 20 2 }
  if position + endSize + r.commentLength ≤ data.size then some r else none

/-- The end record of an archive: the last place with its mark decides. It lies so near to
the end that only the longest comment fits behind it. -/
def endRecord? (data : Data) : Option EndRecord := do
  if data.size < endSize then none
  else
    let last := data.size - endSize
    let back ← (List.range (min last 0xFFFF + 1)).find? fun i =>
      number? data (last - i) 4 == some 0x06054B50
    endRecordAt data (last - back)

/-- Whether some field of an end record is too small for its value. -/
def EndRecord.isTooSmall (r : EndRecord) : Bool :=
  r.disk = full 2 || r.startDisk = full 2 || r.entriesHere = full 2 || r.entries = full 2 ||
    r.size = full 4 || r.offset = full 4

/-- Where a directory starts, how many entries it has, and how far all places are shifted. -/
structure Directory where
  start : Nat
  count : Nat
  shift : Nat

/-- Looks for the long end record from a place on, up to a bound. -/
def longRecordFrom (data : Data) (bound : Nat) : Nat → Nat → Option Nat
  | 0, _ => none
  | fuel + 1, position =>
    if bound < position then none
    else
      match number? data position 4 with
      | none => none
      | some mark =>
        if mark = 0x06064B50 then some position else longRecordFrom data bound fuel (position + 1)

/-- The directory of an archive with long records, whose end is told by a locator. -/
def longDirectory? (data : Data) (r : EndRecord) (locator : Nat) : Option Directory := do
  let locatorDisk ← number? data (locator + 4) 4
  let nominal ← number? data (locator + 8) 8
  if !r.isTooSmall && r.disk ≠ locatorDisk then none
  else if r.position < 60 then none
  else
    let position ← longRecordFrom data (r.position - 60) (data.size + 1) nominal
    let disk ← number? data (position + 16) 4
    let startDisk ← number? data (position + 20) 4
    let count ← number? data (position + 32) 8
    let offset ← number? data (position + 48) 8
    let shift := position - nominal
    if disk = startDisk && offset + shift < Nat.pow 2 64 then some ⟨offset + shift, count, shift⟩ else none

/-- The directory of an archive. -/
def directory? (data : Data) : Option Directory := do
  let r ← endRecord? data
  if !r.isTooSmall && r.disk ≠ r.startDisk then none
  else
    let tail := 20 + endSize + r.commentLength
    if tail ≤ data.size && number? data (data.size - tail) 4 == some 0x07064B50 then
      longDirectory? data r (data.size - tail)
    else if r.size + r.offset ≤ r.position then
      let shift := r.position - r.size - r.offset
      some ⟨r.offset + shift, r.entriesHere, shift⟩
    else none

/-! ## Entries -/

structure Entry where
  name : String
  encrypted : Bool
  /-- Zero for stored bytes and eight for deflated ones. -/
  method : Nat
  checksum : Nat
  /-- The number of bytes as they stand in the archive. -/
  size : Nat
  /-- Where the header of the entry starts. -/
  start : Nat
deriving DecidableEq

/-- Whether an entry is a folder. -/
def Entry.isFolder (e : Entry) : Bool :=
  match e.name.toList.getLast? with
  | some c => c = '/' || c = '\\'
  | none => false

/-- The fields of an entry that its extra fields can replace. -/
structure Extended where
  unpackedSize : Nat
  size : Nat
  start : Nat
  method : Nat
  /-- The entry tells how it is encrypted with a key of some size. -/
  hasKeySize : Bool

/-- The method of an entry whose real method stands in an extra field. -/
def hiddenMethod : Nat := 99

/-- Replaces a full field by the next eight bytes. The last part tells whether they were
there, and the one before it how many bytes were read. -/
def widen (field read : Nat) (bytes : Bytes) : Nat × Nat × Bytes × Bool :=
  if field = full 4 then
    match cut? 8 bytes with
    | some (front, rest) => (LittleEndian.value front, read + 8, rest, true)
    | none => (field, read, bytes, false)
  else (field, read, bytes, true)

/-- Goes through the extra fields of an entry. Fields that end too early change nothing
more. Wrong data about encryption makes the whole archive unreadable. -/
def extraFields : Nat → Bytes → Extended → Option Extended
  | 0, _, e => some e
  | fuel + 1, bytes, e =>
    match cut? 4 bytes with
    | none => some e
    | some (head, rest) =>
      let kind := LittleEndian.value (head.take 2)
      let size := LittleEndian.value (head.drop 2)
      if kind = 0x0001 then
        let (unpackedSize, read, rest, ok) := widen e.unpackedSize 0 rest
        let e := { e with unpackedSize }
        if !ok then some e
        else
          let (packed, read, rest, ok) := widen e.size read rest
          let e := { e with size := packed }
          if !ok then some e
          else
            let (start, read, rest, ok) := widen e.start read rest
            let e := { e with start }
            if !ok then some e else extraFields fuel (rest.drop (size - read)) e
      else if kind = 0x9901 then
        if size ≠ 7 then none
        else
          match cut? 7 rest with
          | none => some e
          | some (field, rest) =>
            let version := LittleEndian.value (field.take 2)
            let vendor := LittleEndian.value ((field.drop 2).take 2)
            let strength := LittleEndian.value ((field.drop 4).take 1)
            let method := LittleEndian.value (field.drop 5)
            if vendor ≠ 0x4541 || (version ≠ 1 && version ≠ 2) ||
                (strength ≠ 1 && strength ≠ 2 && strength ≠ 3) then none
            else extraFields fuel (rest.drop size) { e with method, hasKeySize := true }
      else extraFields fuel (rest.drop size) e

/-- The entry of the directory at a position, and the position behind it. -/
def entryAt (data : Data) (shift position : Nat) : Option (Entry × Nat) := do
  let field := fun start size => number? data (position + start) size
  let mark ← field 0 4
  if mark ≠ 0x02014B50 then none
  else
    let flags ← field 8 2
    let method ← field 10 2
    let checksum ← field 16 4
    let size ← field 20 4
    let unpackedSize ← field 24 4
    let nameLength ← field 28 2
    let extraLength ← field 30 2
    let commentLength ← field 32 2
    let start ← field 42 4
    let name ← slice? data (position + 46) nameLength
    let extra ← slice? data (position + 46 + nameLength) extraLength
    let next := position + 46 + nameLength + extraLength + commentLength
    if data.size < next then none
    else
      let e ← extraFields (extra.length + 1) extra ⟨unpackedSize, size, start, method, false⟩
      if (e.method = hiddenMethod && !e.hasKeySize) || Nat.pow 2 64 ≤ e.start + shift then none
      else
        let name := if flags.testBit 11 then String.ofList (Utf8.decodeLossy name)
          else CodePage437.decode name
        some (⟨name, flags.testBit 0 || e.hasKeySize, e.method, checksum, e.size,
          e.start + shift⟩, next)

/-- Some entries of the directory from a position on. -/
def entriesFrom (data : Data) (shift : Nat) : Nat → Nat → Option (List Entry)
  | 0, _ => some []
  | count + 1, position => do
    let (e, next) ← entryAt data shift position
    return e :: (← entriesFrom data shift count next)

/-- The entries of an archive, in the order of its directory. -/
def entries? (data : Data) : Option (List Entry) := do
  let d ← directory? data
  entriesFrom data d.shift d.count d.start

/-! ## Contents -/

/-- Where the bytes of an entry start, if the entry can be opened: it is not encrypted, its
header is there, and its method is known. -/
def open? (data : Data) (e : Entry) : Option Nat := do
  let mark ← number? data e.start 4
  let nameLength ← number? data (e.start + 26) 2
  let extraLength ← number? data (e.start + 28) 2
  if e.encrypted || mark ≠ 0x04034B50 || (e.method ≠ 0 && e.method ≠ 8) then none
  else some (e.start + 30 + nameLength + extraLength)

/-- The bytes of an entry that start at some place. They have to give its checksum. -/
def content? (data : Data) (e : Entry) (start : Nat) : Option Bytes := do
  let packed := (data.extract start (start + e.size)).toList
  let bytes ← if e.method = 0 then some packed else Inflate.unpack? packed
  if (Checksum.ofBytes bytes).toNat = e.checksum then some bytes else none

end ClassAtlas.Zip
