-- The blank characters of Unicode (its property `White_Space`) and the removal of blanks
-- around a text.

namespace ClassAtlas.Text

/-- Whether a character is blank. -/
def isBlank (c : Char) : Bool :=
  let n := c.toNat
  (0x9 ≤ n && n ≤ 0xD) || n == 0x20 || n == 0x85 || n == 0xA0 || n == 0x1680 ||
    (0x2000 ≤ n && n ≤ 0x200A) || n == 0x2028 || n == 0x2029 || n == 0x202F || n == 0x205F ||
    n == 0x3000

/-- A text without the characters at its end that pass `p`. -/
def dropEndWhile (p : Char → Bool) (text : List Char) : List Char :=
  (text.reverse.dropWhile p).reverse

/-- A text without the blanks around it. -/
def trimmed (text : List Char) : List Char := dropEndWhile isBlank (text.dropWhile isBlank)

end ClassAtlas.Text
