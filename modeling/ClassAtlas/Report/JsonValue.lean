-- JSON values and their text. The text has no blanks, and the fields of an object stand in
-- the order in which the value has them.
import ClassAtlas.Text.Elapsed

namespace ClassAtlas

/-- A JSON value. All numbers are natural. -/
inductive JsonValue
  | null
  | boolean (value : Bool)
  | number (value : Nat)
  | string (value : String)
  | array (items : List JsonValue)
  | object (fields : List (String × JsonValue))

namespace JsonValue

/-! ## Building -/

/-- A text, or null. -/
def ofText? : Option String → JsonValue
  | some text => string text
  | none => null

/-- An array of texts. -/
def ofTexts (texts : List String) : JsonValue := array (texts.map string)

/-! ## Text -/

/-- A character inside quotes. Quotes, backslashes and control characters are escaped. -/
def escape (c : Char) : List Char :=
  if c = '"' then ['\\', '"']
  else if c = '\\' then ['\\', '\\']
  else if c = '\n' then ['\\', 'n']
  else if c = '\r' then ['\\', 'r']
  else if c = '\t' then ['\\', 't']
  else if c = Char.ofNat 8 then ['\\', 'b']
  else if c = Char.ofNat 12 then ['\\', 'f']
  else if c.toNat < 0x20 then
    let digits := Nat.toDigits 16 c.toNat
    ['\\', 'u'] ++ List.replicate (4 - digits.length) '0' ++ digits
  else [c]

/-- A text in quotes. -/
def quote (text : String) : List Char := '"' :: text.toList.flatMap escape ++ ['"']

mutual

/-- The text of a value. -/
def render : JsonValue → List Char
  | null => "null".toList
  | boolean true => "true".toList
  | boolean false => "false".toList
  | number value => Nat.toDigits 10 value
  | string value => quote value
  | array items => '[' :: renderItems items ++ [']']
  | object fields => Char.ofNat 0x7B :: renderFields fields ++ [Char.ofNat 0x7D]

/-- The values of an array with commas between them. -/
def renderItems : List JsonValue → List Char
  | [] => []
  | [item] => render item
  | item :: rest => render item ++ ',' :: renderItems rest

/-- The fields of an object with commas between them. -/
def renderFields : List (String × JsonValue) → List Char
  | [] => []
  | [(name, value)] => quote name ++ ':' :: render value
  | (name, value) :: rest => quote name ++ ':' :: render value ++ ',' :: renderFields rest

end

end JsonValue

end ClassAtlas
