-- Unpacking of deflated bytes. The packed form is a run of blocks: bytes as they are, or
-- symbols of a prefix code that stand for bytes and for repetitions of what came before.
import ClassAtlas.Bytes

namespace ClassAtlas.Inflate

/-! ## Bits -/

/-- Packed bytes, from the bit that is read next. -/
structure Bits where
  /-- The bits of the current byte that are left. -/
  current : List Bool
  rest : Bytes

/-- A reader of bits. It fails where the packed form is broken. -/
abbrev Reader := StateT Bits Option

/-- The bits of a byte, the lowest one first. -/
def bitsOfByte (b : UInt8) : List Bool := (List.range 8).map fun i => b.toNat.testBit i

/-- The next bit. -/
def bit : Reader Bool := fun s =>
  match s.current with
  | b :: current => some (b, { s with current })
  | [] =>
    match s.rest with
    | [] => none
    | byte :: rest =>
      match bitsOfByte byte with
      | b :: current => some (b, ⟨current, rest⟩)
      | [] => none

/-- The number of the next bits, the lowest one first. -/
def bits : Nat → Reader Nat
  | 0 => return 0
  | n + 1 => do
    let b ← bit
    return b.toNat + 2 * (← bits n)

/-- The next bytes, from the start of the next whole byte. -/
def wholeBytes (n : Nat) : Reader Bytes := fun s =>
  (cut? n s.rest).map fun (front, rest) => (front, ⟨[], rest⟩)

/-! ## Prefix codes -/

/-- The greatest length of a code word. -/
def maxLength : Nat := 15

/-- A prefix code: how many words it has of each length from one on, and their symbols, the
shorter words first. -/
structure Code where
  counts : List Nat
  symbols : Array Nat

/-- The code of the word lengths of all symbols; a symbol of length zero has no word. A code
must use up all words, unless it has at most one. -/
def Code.ofLengths (lengths : List Nat) : Option Code :=
  let lengthsOnly := (List.range maxLength).map (· + 1)
  let counts := lengthsOnly.map fun n => lengths.count n
  let left := counts.foldl (fun (left : Int) (count : Nat) => 2 * left - count) 1
  if left < 0 || (0 < left && 1 < counts.foldr (· + ·) 0) then none
  else
    let numbered := lengths.zipIdx
    some ⟨counts, (lengthsOnly.flatMap fun n =>
      (numbered.filter fun p => p.1 = n).map (·.2)).toArray⟩

/-- Reads a word bit by bit. `first` is the first word of the length that comes next, and
`index` the number of symbols with shorter words. -/
def symbolFrom (symbols : Array Nat) : List Nat → Nat → Nat → Nat → Reader Nat
  | [], _, _, _ => failure
  | count :: longer, word, first, index => do
    let word := 2 * word + (← bit).toNat
    if word < first + count then
      match symbols[index + (word - first)]? with
      | some symbol => return symbol
      | none => failure
    else symbolFrom symbols longer word (2 * (first + count)) (index + count)

/-- The symbol of the next word of a code. -/
def symbol (c : Code) : Reader Nat := symbolFrom c.symbols c.counts 0 0 0

/-! ## Symbols -/

/-- The least length of a repetition and the number of further bits, by its symbol. -/
def lengthTable : Array (Nat × Nat) :=
  #[(3, 0), (4, 0), (5, 0), (6, 0), (7, 0), (8, 0), (9, 0), (10, 0), (11, 1), (13, 1), (15, 1),
    (17, 1), (19, 2), (23, 2), (27, 2), (31, 2), (35, 3), (43, 3), (51, 3), (59, 3), (67, 4),
    (83, 4), (99, 4), (115, 4), (131, 5), (163, 5), (195, 5), (227, 5), (258, 0)]

/-- The least distance of a repetition and the number of further bits, by its symbol. -/
def distanceTable : Array (Nat × Nat) :=
  #[(1, 0), (2, 0), (3, 0), (4, 0), (5, 1), (7, 1), (9, 2), (13, 2), (17, 3), (25, 3), (33, 4),
    (49, 4), (65, 5), (97, 5), (129, 6), (193, 6), (257, 7), (385, 7), (513, 8), (769, 8),
    (1025, 9), (1537, 9), (2049, 10), (3073, 10), (4097, 11), (6145, 11), (8193, 12),
    (12289, 12), (16385, 13), (24577, 13)]

/-- The number that a symbol of a table stands for, with its further bits. -/
def extended (table : Array (Nat × Nat)) (symbol : Nat) : Reader Nat := do
  match table[symbol]? with
  | some (least, more) => return least + (← bits more)
  | none => failure

/-- Repeats bytes from some distance back. What lies before the start counts as zeros. -/
def repeatBack (distance : Nat) : Nat → Array UInt8 → Array UInt8
  | 0, out => out
  | n + 1, out =>
    repeatBack distance n
      (out.push (if distance ≤ out.size then out.getD (out.size - distance) 0 else 0))

/-- The symbols of a block up to its end, in at most `fuel` steps. -/
def symbols (literals distances : Code) : Nat → Array UInt8 → Reader (Array UInt8)
  | 0, _ => failure
  | fuel + 1, out => do
    let s ← symbol literals
    if s < 256 then symbols literals distances fuel (out.push (UInt8.ofNat s))
    else if s = 256 then return out
    else
      let length ← extended lengthTable (s - 257)
      let distance ← extended distanceTable (← symbol distances)
      symbols literals distances fuel (repeatBack distance length out)

/-! ## Blocks -/

/-- The codes of a block that tells none. -/
def fixedCodes : Option (Code × Code) := do
  let literals := List.replicate 144 8 ++ List.replicate 112 9 ++ List.replicate 24 7 ++
    List.replicate 8 8
  return (← Code.ofLengths literals, ← Code.ofLengths (List.replicate 32 5))

/-- The order in which a block tells the word lengths of the code for word lengths. -/
def lengthOrder : List Nat := [16, 17, 18, 0, 8, 7, 9, 6, 10, 5, 11, 4, 12, 3, 13, 2, 14, 1, 15]

/-- Reads word lengths up to a number of them. Some symbols repeat the last length or zero. -/
def wordLengths (code : Code) (total : Nat) : Nat → List Nat → Reader (List Nat)
  | 0, _ => failure
  | fuel + 1, lengths => do
    if lengths.length = total then return lengths
    else if total < lengths.length then failure
    else
      let s ← symbol code
      if s < 16 then wordLengths code total fuel (lengths ++ [s])
      else if s = 16 then
        match lengths.getLast? with
        | some last =>
          let n := 3 + (← bits 2)
          wordLengths code total fuel (lengths ++ List.replicate n last)
        | none => failure
      else if s = 17 then
        let n := 3 + (← bits 3)
        wordLengths code total fuel (lengths ++ List.replicate n 0)
      else
        let n := 11 + (← bits 7)
        wordLengths code total fuel (lengths ++ List.replicate n 0)

/-- Some numbers of three bits. -/
def triples : Nat → Reader (List Nat)
  | 0 => return []
  | n + 1 => do
    let t ← bits 3
    return t :: (← triples n)

/-- The codes that a block tells. -/
def toldCodes : Reader (Code × Code) := do
  let literalCount := 257 + (← bits 5)
  let distanceCount := 1 + (← bits 5)
  let told ← triples (4 + (← bits 4))
  if 286 < literalCount || 30 < distanceCount then failure
  let places := lengthOrder.zip told
  let code ← StateT.lift (Code.ofLengths ((List.range 19).map fun i => (places.lookup i).getD 0))
  let total := literalCount + distanceCount
  let lengths ← wordLengths code total (total + 1) []
  let literals ← StateT.lift (Code.ofLengths (lengths.take literalCount))
  let distances ← StateT.lift (Code.ofLengths (lengths.drop literalCount))
  return (literals, distances)

/-- A block of bytes as they are. Their number is told twice, once with all bits turned. -/
def storedBlock (out : Array UInt8) : Reader (Array UInt8) := do
  let size := LittleEndian.value (← wholeBytes 2)
  let turned := LittleEndian.value (← wholeBytes 2)
  if size + turned ≠ 0xFFFF then failure
  return out ++ (← wholeBytes size)

/-- The blocks up to the last one, in at most `fuel` steps. -/
def blocks (steps : Nat) : Nat → Array UInt8 → Reader (Array UInt8)
  | 0, _ => failure
  | fuel + 1, out => do
    let last ← bit
    let form ← bits 2
    let out ←
      if form = 0 then storedBlock out
      else if form = 1 then do
        let (literals, distances) ← StateT.lift fixedCodes
        symbols literals distances steps out
      else if form = 2 then do
        let (literals, distances) ← toldCodes
        symbols literals distances steps out
      else failure
    if last then return out else blocks steps fuel out

/-- The bytes behind a packed form. What follows the last block does not count. -/
def unpack? (packed : Bytes) : Option Bytes :=
  let steps := 8 * packed.length + 1
  ((blocks steps steps #[]).run ⟨[], packed⟩).map fun (out, _) => out.toList

end ClassAtlas.Inflate
