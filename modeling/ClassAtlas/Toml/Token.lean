-- The words of a TOML text. Comments are left out, runs of blanks are kept, and a line ends
-- with a line feed that may follow a carriage return.

namespace ClassAtlas.Toml

/-- Why a text is no TOML document, or why a value is not the one that is asked for. -/
inductive TomlFault
  /-- A character that starts no word. -/
  | strayChar (c : Char)
  /-- A character that no quoted text may hold. -/
  | badChar (c : Char)
  | badEscape
  | unclosedText
  /-- Something else stands where this is expected. -/
  | expected (what : String)
  | badNumber (text : String)
  /-- A table or a key that was given before. -/
  | repeated (key : String)
  /-- A value of another type stands where this is asked for. -/
  | wrongType (what : String)
  | missing (key : String)
deriving DecidableEq

def TomlFault.message : TomlFault → String
  | strayChar c => s!"unexpected character {c.quote}"
  | badChar c => s!"invalid character in text: {c.quote}"
  | badEscape => "invalid escape in text"
  | unclosedText => "unterminated text"
  | expected what => "expected " ++ what
  | badNumber text => "invalid number: " ++ text
  | repeated key => "duplicate key: " ++ key
  | wrongType what => "invalid type, expected " ++ what
  | missing key => "missing field: " ++ key

inductive Token
  | blank (run : List Char)
  | newline
  | equals
  | period
  | comma
  | colon
  | plus
  | openBrace
  | closeBrace
  | openBracket
  | closeBracket
  /-- Letters, digits, dashes and underscores. -/
  | bare (text : String)
  /-- A text in quotes. One in three quotes may span lines. -/
  | quoted (text : String) (multiline : Bool)
deriving DecidableEq

/-- A text with each pair of a carriage return and a line feed made a line feed. -/
def foldLines : List Char → List Char
  | '\r' :: '\n' :: rest => '\n' :: foldLines rest
  | c :: rest => c :: foldLines rest
  | [] => []

/-! ## Quoted texts -/

/-- Whether a character may stand in quotes as it is. -/
def isPlain (c : Char) : Bool := c == '\t' || (0x20 ≤ c.toNat && c.toNat != 0x7F)

def isBlankChar (c : Char) : Bool := c == ' ' || c == '\t'

/-- The number of a hexadecimal digit. -/
def hexValue? (c : Char) : Option Nat :=
  if c.isDigit then some (c.toNat - '0'.toNat)
  else if 'a' ≤ c && c ≤ 'f' then some (c.toNat - 'a'.toNat + 10)
  else if 'A' ≤ c && c ≤ 'F' then some (c.toNat - 'A'.toNat + 10)
  else none

/-- The character whose code is written in so many hexadecimal digits. -/
def codeEscape (digits : Nat) (text : List Char) : Except TomlFault (Char × List Char) :=
  let front := text.take digits
  match front.mapM hexValue? with
  | some values =>
    let code := values.foldl (fun n d => n * 16 + d) 0
    if front.length = digits ∧ code.isValidChar then .ok (Char.ofNat code, text.drop digits)
    else .error .badEscape
  | none => .error .badEscape

/-- The end of a line that is escaped in a text of several lines: only blanks stand before
it, and it takes away all blanks and line ends that follow. -/
def lineEscape (text : List Char) : Except TomlFault (List Char) :=
  let skip := List.dropWhile fun c => isBlankChar c || c == '\n'
  match text.dropWhile isBlankChar with
  | '\n' :: rest => .ok (skip rest)
  | [] => .ok []
  | _ => .error .badEscape

/-- What an escape stands for, and the text behind it. -/
def escape (multiline : Bool) : List Char → Except TomlFault (List Char × List Char)
  | [] => .error .unclosedText
  | c :: rest =>
    match c with
    | '"' => .ok (['"'], rest)
    | '\\' => .ok (['\\'], rest)
    | 'b' => .ok ([Char.ofNat 8], rest)
    | 'f' => .ok ([Char.ofNat 12], rest)
    | 'n' => .ok (['\n'], rest)
    | 'r' => .ok (['\r'], rest)
    | 't' => .ok (['\t'], rest)
    | 'u' => (codeEscape 4 rest).map fun (d, rest) => ([d], rest)
    | 'U' => (codeEscape 8 rest).map fun (d, rest) => ([d], rest)
    | _ =>
      if multiline && (isBlankChar c || c == '\n') then
        (lineEscape (c :: rest)).map fun rest => ([], rest)
      else .error .badEscape

/-- The text up to its closing quote, and what follows. Between three quotes, one or two
more belong to the text, even right in front of the closing ones. -/
def body (quote : Char) (multiline : Bool) : Nat → List Char → Except TomlFault (List Char × List Char)
  | 0, _ | _, [] => .error .unclosedText
  | fuel + 1, c :: rest =>
    let goOn := fun (front : List Char) (rest : List Char) =>
      (body quote multiline fuel rest).map fun (text, rest) => (front ++ text, rest)
    if c = quote then
      if !multiline then .ok ([], rest)
      else
        match rest.span (· = quote) with
        | ([], _) => goOn [quote] rest
        | ([_], rest) => goOn [quote, quote] rest
        | (more, rest) =>
          let extra := min (more.length - 2) 2
          .ok (List.replicate extra quote, more.drop (2 + extra) ++ rest)
    else if c = '\n' then if multiline then goOn ['\n'] rest else .error .unclosedText
    else if c = '\\' && quote = '"' then
      match escape multiline rest with
      | .ok (front, rest) => goOn front rest
      | .error fault => .error fault
    else if isPlain c then goOn [c] rest
    else .error (.badChar c)

/-- Reads a quoted text behind its first quote. A line end right after three quotes does not
count. -/
def quotedText (quote : Char) (text : List Char) : Except TomlFault (Token × List Char) :=
  let read := fun multiline (text : List Char) =>
    (body quote multiline (text.length + 1) text).map fun (text, rest) =>
      (Token.quoted (String.ofList text) multiline, rest)
  match text with
  | a :: b :: rest =>
    if a = quote && b = quote then
      match rest with
      | '\n' :: rest => read true rest
      | rest => read true rest
    else read false text
  | _ => read false text

/-! ## Words -/

/-- Whether a character may stand in a bare word. -/
def isBare (c : Char) : Bool := c.isAlphanum || c == '-' || c == '_'

/-- Whether a character may stand in a comment. -/
def isComment (c : Char) : Bool := c == '\t' || 0x20 ≤ c.toNat

/-- The first word of a text that starts with `c`, and what follows. A comment is no word. -/
def next (c : Char) (rest : List Char) : Except TomlFault (Option Token × List Char) :=
  match c with
  | '\n' => .ok (some .newline, rest)
  | '=' => .ok (some .equals, rest)
  | '.' => .ok (some .period, rest)
  | ',' => .ok (some .comma, rest)
  | ':' => .ok (some .colon, rest)
  | '+' => .ok (some .plus, rest)
  | '[' => .ok (some .openBracket, rest)
  | ']' => .ok (some .closeBracket, rest)
  | '#' => .ok (none, rest.dropWhile isComment)
  | '"' | '\'' => (quotedText c rest).map fun (token, rest) => (some token, rest)
  | _ =>
    if c = Char.ofNat 0x7B then .ok (some .openBrace, rest)
    else if c = Char.ofNat 0x7D then .ok (some .closeBrace, rest)
    else if isBlankChar c then
      .ok (some (.blank (c :: rest.takeWhile isBlankChar)), rest.dropWhile isBlankChar)
    else if isBare c then
      .ok (some (.bare (String.ofList (c :: rest.takeWhile isBare))), rest.dropWhile isBare)
    else .error (.strayChar c)

/-- The words of a text, in at most `fuel` steps. -/
def tokensWith : Nat → List Char → Except TomlFault (List Token)
  | _, [] => .ok []
  | 0, _ :: _ => .error (.expected "the end")
  | fuel + 1, c :: rest =>
    match next c rest with
    | .error fault => .error fault
    | .ok (token, rest) => (tokensWith fuel rest).map (token.toList ++ ·)

/-- The words of a text. A byte order mark at its front does not count. -/
def tokens (text : String) : Except TomlFault (List Token) :=
  let chars := foldLines text.toList
  let chars := if chars.head? = some (Char.ofNat 0xFEFF) then chars.drop 1 else chars
  tokensWith chars.length chars

end ClassAtlas.Toml
