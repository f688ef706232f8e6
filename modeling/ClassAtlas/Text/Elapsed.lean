-- Spans of time as text: a number with a unit, from nanoseconds to seconds. The unit is
-- the greatest of which there is one, and the fraction carries no zeros at its end.
import ClassAtlas.Text.Blank

namespace ClassAtlas.Text

/-- The digits of a number, with zeros in front up to a width. -/
def padded (width n : Nat) : List Char :=
  let digits := Nat.toDigits 10 n
  List.replicate (width - digits.length) '0' ++ digits

/-- `n / 10 ^ places` as a decimal number without zeros at the end of its fraction. -/
def decimal (n places : Nat) : String :=
  let whole := Nat.toDigits 10 (n / Nat.pow 10 places)
  match dropEndWhile (· = '0') (padded places (n % Nat.pow 10 places)) with
  | [] => String.ofList whole
  | fraction => String.ofList (whole ++ '.' :: fraction)

/-- The text of a span of time that is given in nanoseconds. -/
def elapsed (nanoseconds : Nat) : String :=
  if Nat.pow 10 9 ≤ nanoseconds then decimal nanoseconds 9 ++ "s"
  else if Nat.pow 10 6 ≤ nanoseconds then decimal nanoseconds 6 ++ "ms"
  else if Nat.pow 10 3 ≤ nanoseconds then decimal nanoseconds 3 ++ "µs"
  else toString nanoseconds ++ "ns"

end ClassAtlas.Text
