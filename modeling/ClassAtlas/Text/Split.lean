-- Cutting text at a character or at a fixed piece. All functions work on lists of
-- characters, and those on strings are stated through them.

namespace ClassAtlas.Text

/-- The text before the last `sep` and the text after it. -/
def splitLast? (sep : Char) : List Char → Option (List Char × List Char)
  | [] => none
  | c :: rest =>
    match splitLast? sep rest with
    | some (before, after) => some (c :: before, after)
    | none => if c = sep then some ([], rest) else none

/-- The text after the last `sep`, or all of it. -/
def afterLast (sep : Char) (text : List Char) : List Char :=
  match splitLast? sep text with
  | some (_, after) => after
  | none => text

/-- What follows the front `piece` of a text that starts with it. -/
def dropFront? : List Char → List Char → Option (List Char)
  | [], text => some text
  | _ :: _, [] => none
  | p :: piece, c :: text => if p = c then dropFront? piece text else none

/-- What comes before the end `piece` of a text that ends with it. -/
def dropEnd? (piece text : List Char) : Option (List Char) :=
  (dropFront? piece.reverse text.reverse).map List.reverse

/-- The parts of a text between the characters `sep`. A text without one is its only part. -/
def splitAt (sep : Char) : List Char → List (List Char)
  | [] => [[]]
  | c :: rest =>
    match splitAt sep rest with
    | part :: parts => if c = sep then [] :: part :: parts else (c :: part) :: parts
    | [] => [[c]]

/-- The parts joined with `sep` between them. -/
def join (sep : List Char) : List (List Char) → List Char
  | [] => []
  | [part] => part
  | part :: parts => part ++ sep ++ join sep parts

/-- The texts joined with `sep` between them. -/
def joined (sep : String) (parts : List String) : String :=
  String.ofList (join sep.toList (parts.map String.toList))

/-- `text` with every `old` made a `new`. -/
def replaceChar (old new : Char) (text : String) : String :=
  String.ofList (text.toList.map fun c => if c = old then new else c)

end ClassAtlas.Text
