-- Regular expressions, as far as they are made of the two ends of a text, of single characters
-- and of runs of them. A search looks for a match anywhere in a text; only the marks for its ends
-- hold a match fast.

namespace ClassAtlas

/-- What may stand for one character of an expression. -/
inductive CharClass
  /-- Any character but a line feed. -/
  | any
  | exactly (c : Char)
deriving DecidableEq

def CharClass.covers : CharClass → Char → Bool
  | any, c => c != '\n'
  | exactly d, c => c == d

/-- A part of an expression. -/
inductive RegexItem
  | atStart
  | atEnd
  | one (k : CharClass)
  /-- Any number of characters, and maybe none. -/
  | many (k : CharClass)
deriving DecidableEq

abbrev Regex := List RegexItem

namespace Regex

/-! ## The text of an expression -/

/-- Whether a character may mean something else than itself. -/
def isMeta (c : Char) : Bool :=
  c ∈ ['\\', '.', '+', '*', '?', '(', ')', '|', '[', ']', '{', '}', '^', '$', '#', '&', '-', '~']

/-- A text that stands for a character alone: a backslash before one with a meaning. -/
def escape (c : Char) : List Char := if isMeta c then ['\\', c] else [c]

/-- An expression that is being read. -/
structure Reading where
  /-- The items so far, the last one first. -/
  items : List RegexItem
  /-- Whether a backslash stands before the next character. -/
  escaped : Bool

/-- Reads one more character. There is no reading where it asks for more than these items. -/
def Reading.next? (r : Reading) (c : Char) : Option Reading :=
  if r.escaped then
    if isMeta c then some ⟨.one (.exactly c) :: r.items, false⟩ else none
  else
    match c, r.items with
    | '\\', items => some ⟨items, true⟩
    | '^', items => some ⟨.atStart :: items, false⟩
    | '$', items => some ⟨.atEnd :: items, false⟩
    | '.', items => some ⟨.one .any :: items, false⟩
    | '*', .one k :: items => some ⟨.many k :: items, false⟩
    | c, items => if isMeta c then none else some ⟨.one (.exactly c) :: items, false⟩

/-- The expression that a text spells. -/
def read? (text : List Char) : Option Regex := do
  let last ← text.foldlM Reading.next? ⟨[], false⟩
  if last.escaped then none else return last.items.reverse

/-! ## Searching -/

/-- At which places of a text an item and what follows it match. The last argument tells the same
of what follows alone, and `first` whether the text is the whole one. -/
def extend (item : RegexItem) (first : Bool) : List Char → List Bool → List Bool
  | [], here :: _ =>
    [match item with
      | .atStart => first && here
      | .one _ => false
      | _ => here]
  | c :: text, here :: after =>
    let rest := extend item false text after
    let fits := match item with
      | .atStart => first && here
      | .atEnd => false
      | .one k => k.covers c && after.headD false
      | .many k => here || (k.covers c && rest.headD false)
    fits :: rest
  | _, [] => []

/-- At which places of a text an expression matches, its start first and its end last. -/
def places (text : List Char) : Regex → List Bool
  | [] => List.replicate (text.length + 1) true
  | item :: items => extend item true text (places text items)

/-- Whether the expression that a text spells matches anywhere in another text. -/
def search (expression text : String) : Bool :=
  match read? expression.toList with
  | some items => (places text.toList items).any id
  | none => false

end Regex

end ClassAtlas
