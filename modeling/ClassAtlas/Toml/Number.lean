-- Numbers of a TOML text. Underscores may stand between digits, a decimal number has no
-- zeros in front, an integer fits 64 bits with its sign, and a number of floating point is
-- not too great for its 64 bits.
import ClassAtlas.Toml.Token

namespace ClassAtlas.Toml.Number

/-! ## Runs of digits -/

/-- Which forms a run of digits may have. -/
structure Form where
  radix : Nat
  signed : Bool
  zerosInFront : Bool

/-- Whether a character is a digit of that radix. -/
def isDigit (radix : Nat) (c : Char) : Bool :=
  match hexValue? c with
  | some value => value < radix
  | none => false

/-- How much of a run of digits was read. -/
structure State where
  /-- No digit yet. -/
  first : Bool := true
  /-- The first digit is a zero. -/
  zeroInFront : Bool := false
  /-- The last character is an underscore. -/
  underscore : Bool := false

/-- Takes digits and single underscores off the front of a text. -/
def scan (form : Form) : State → List Char → Option (List Char × List Char)
  | s, [] => if s.first || s.underscore then none else some ([], [])
  | s, c :: rest =>
    let take := fun (s : State) =>
      (scan form { s with first := false } rest).map fun (digits, rest) => (c :: digits, rest)
    if c = '0' && s.first then take { s with zeroInFront := true }
    else if isDigit form.radix c then
      if !s.first && s.zeroInFront && !form.zerosInFront then none
      else take { s with underscore := false }
    else if c = '_' && s.first then none
    else if c = '_' && !s.underscore then take { s with underscore := true }
    else if s.first || s.underscore then none
    else some ([], c :: rest)

/-- A number: its sign, its digits, and the text behind it. -/
structure Run where
  negative : Bool
  digits : List Char
  rest : List Char

/-- Reads a run of digits, and a sign in front where the form allows one. -/
def run (form : Form) (text : List Char) : Option Run :=
  let negative := form.signed && text.head? = some '-'
  (scan form {} (if negative then text.drop 1 else text)).map fun (digits, rest) =>
    ⟨negative, digits.filter (· ≠ '_'), rest⟩

/-- The number that digits spell. -/
def value (radix : Nat) (digits : List Char) : Nat :=
  digits.foldl (fun n c => n * radix + (hexValue? c).getD 0) 0

def decimalForm : Form := ⟨10, true, false⟩

/-! ## Integers -/

/-- The integer of a run that is the whole text, if it fits 64 bits. -/
def integer (form : Form) (text : List Char) : Option Int :=
  match run form text with
  | some ⟨negative, digits, []⟩ =>
    let n := value form.radix digits
    if negative then if n ≤ Nat.pow 2 63 then some (-n) else none
    else if n < Nat.pow 2 63 then some n
    else none
  | _ => none

/-! ## Floating point -/

/-- Whether `digits * 10 ^ exponent` rounds to a finite number of 64 bits. -/
def isFinite (digits : List Char) (exponent : Int) : Bool :=
  let n := value 10 digits
  let size : Int := (Nat.toDigits 10 n).length + exponent
  if n = 0 || size < 300 then true
  else if size > 320 then false
  else
    let limit := (Nat.pow 2 54 - 1) * Nat.pow 2 970
    if 0 ≤ exponent then n * Nat.pow 10 exponent.toNat < limit
    else n < limit * Nat.pow 10 (-exponent).toNat

/-- The exponent of a number, with its sign. -/
def exponent (r : Run) : Int := if r.negative then -(value 10 r.digits : Int) else value 10 r.digits

end ClassAtlas.Toml.Number
