-- TOML documents. A document is a list of lines: headers of tables, and keys with values.
-- Its sections, each a header with the lines below it, are put together to one table. A
-- table may hold a key more than once; who reads the table decides what that means.
import ClassAtlas.Toml.Number

namespace ClassAtlas.Toml

inductive Value
  | integer (value : Int)
  /-- A number of floating point. -/
  | float
  | boolean (value : Bool)
  | text (value : String)
  /-- A date or a time, or both. -/
  | dateTime
  | array (items : List Value)
  | table (entries : List (String × Value))
  /-- A table that came about by keys with dots and can grow by more of them. -/
  | dotted (entries : List (String × Value))

abbrev Entries := List (String × Value)

/-! ## Reading words -/

abbrev Reader := StateT (List Token) (Except TomlFault)

namespace Reader

/-- Takes the next word. -/
def next? : Reader (Option Token) := fun tokens =>
  match tokens with
  | [] => .ok (none, [])
  | t :: rest => .ok (some t, rest)

/-- Takes a word away if it is the next one. -/
def eat (token : Token) : Reader Bool := fun tokens =>
  match tokens with
  | t :: rest => if t = token then .ok (true, rest) else .ok (false, tokens)
  | [] => .ok (false, [])

/-- Takes away a word that has to be the next one. -/
def expect (token : Token) (what : String) : Reader Unit := do
  unless ← eat token do throw (.expected what)

/-- Takes away blanks. -/
def skipBlanks : Reader Unit := fun tokens =>
  match tokens with
  | .blank _ :: rest => .ok ((), rest)
  | _ => .ok ((), tokens)

/-- The words behind all blanks and line ends. -/
def withoutGap : List Token → List Token
  | .blank _ :: rest | .newline :: rest => withoutGap rest
  | tokens => tokens

/-- Takes away blanks and line ends. -/
def skipGap : Reader Unit := modify withoutGap

/-- Takes away the end of a line or finds the end of the text. -/
def lineEnd : Reader Unit := do
  match ← next? with
  | none | some .newline => return
  | some _ => throw (.expected "newline")

/-! ## Keys -/

def key : Reader String := do
  match ← next? with
  | some (.bare text) | some (.quoted text false) => return text
  | _ => throw (.expected "a table key")

/-- More parts of a key, each behind a dot. -/
def moreKeys : Nat → Reader (List String)
  | 0 => return []
  | fuel + 1 => do
    skipBlanks
    if ← eat .period then
      skipBlanks
      let k ← key
      return k :: (← moreKeys fuel)
    else return []

/-- A key with its parts. -/
def dottedKey : Reader (List String) := do
  let first ← key
  return first :: (← moreKeys (← get).length)

/-! ## Numbers and dates -/

/-- A bare word that has to stand next. -/
def bareWord : Reader (List Char) := do
  match ← next? with
  | some (.bare text) => return text.toList
  | _ => throw (.badNumber "")

/-- A value if the text of a number is right. -/
def checked {α : Type} (text : List Char) : Option α → Reader α
  | some a => return a
  | none => throw (.badNumber (String.ofList text))

/-- A number of floating point whose text starts with `text`; `fraction` is what stands
behind a point. Behind a lone `e` the exponent is the next word. -/
def float (text : List Char) (fraction : Option (List Char)) : Reader Value := do
  let whole ← checked text (Number.run Number.decimalForm text)
  let unsigned : Number.Form := ⟨10, false, true⟩
  let (digits, places, suffix) ← match fraction with
    | none => pure (whole.digits, 0, whole.rest)
    | some after =>
      let r ← checked text (if whole.rest.isEmpty then Number.run unsigned after else none)
      pure (whole.digits ++ r.digits, r.digits.length, r.rest)
  let exponent ← match suffix with
    | [] => pure 0
    | e :: rest =>
      let r ←
        if e ≠ 'e' && e ≠ 'E' then throw (.badNumber (String.ofList text))
        else if rest.isEmpty then do
          let _ ← eat .plus
          let word ← bareWord
          checked word (Number.run unsigned word)
        else checked rest (Number.run ⟨10, true, true⟩ rest)
      if r.rest.isEmpty then pure (Number.exponent r) else throw (.badNumber (String.ofList text))
  checked text (if Number.isFinite digits (exponent - places) then some Value.float else none)

/-- The words of a number that has no point or exponent. -/
def infinite : List String := ["inf", "-inf", "nan", "-nan"]

/-- A number whose text starts with `text`. -/
def number (text : List Char) : Reader Value := do
  let based := fun radix => do
    return Value.integer (← checked text (Number.integer ⟨radix, false, true⟩ (text.drop 2)))
  match text with
  | '0' :: 'x' :: _ => based 16
  | '0' :: 'o' :: _ => based 8
  | '0' :: 'b' :: _ => based 2
  | _ =>
    if text.contains 'e' || text.contains 'E' then float text none
    else if ← eat .period then float text (some (← bareWord))
    else if infinite.contains (String.ofList text) then return .float
    else return .integer (← checked text (Number.integer Number.decimalForm text))

/-- The rest of a date or a time behind its first word and, if `inTime` tells so, behind a
colon. A blank may stand between a date and a time. What the words say is not looked at. -/
def dateTime (inTime : Bool) : Reader Value := do
  match ← get with
  | .blank [' '] :: .bare _ :: rest => set rest
  | _ => pure ()
  let hasTime ← if inTime then pure true else eat .colon
  if hasTime then
    let _ ← bareWord
    expect .colon "a colon"
    let _ ← bareWord
    for mark in [Token.period, .plus, .colon] do
      if ← eat mark then
        let _ ← bareWord
  return .dateTime

/-- A number, a date or a time whose text starts with `text`. -/
def numberOrDate (text : List Char) : Reader Value := do
  let dashed := (text.drop 1).contains '-' && !(text.zip (text.drop 1)).contains ('e', '-')
  if text.contains 'T' || text.contains 't' || dashed then dateTime false
  else if ← eat .colon then dateTime true
  else number text

/-- The value of a bare word. -/
def bareValue (text : String) : Reader Value :=
  if text = "true" then return .boolean true
  else if text = "false" then return .boolean false
  else
    match text.toList with
    | c :: _ =>
      if c.isDigit || c = '-' || text = "inf" || text = "nan" then numberOrDate text.toList
      else throw (.expected "a value")
    | [] => throw (.expected "a value")

end Reader

/-! ## Keys with dots -/

/-- The entries with one more value at a key of several parts. All parts but the last name
tables that came about in the same way. -/
def addDotted : List String → Value → Entries → Except TomlFault Entries
  | [], _, entries => .ok entries
  | [k], v, entries => .ok (entries ++ [(k, v)])
  | k :: rest, v, entries =>
    match entries.span fun e => e.1 ≠ k with
    | (before, (_, .dotted inner) :: after) =>
      (addDotted rest v inner).map fun inner => before ++ (k, .dotted inner) :: after
    | (_, _ :: _) => .error (.repeated k)
    | (before, []) => (addDotted rest v []).map fun inner => before ++ [(k, .dotted inner)]

/-! ## Values -/

namespace Reader

mutual

/-- A value. The fuel bounds the number of words. -/
def value : Nat → Reader Value
  | 0 => throw (.expected "a value")
  | fuel + 1 => do
    match ← next? with
    | some (.quoted text _) => return .text text
    | some (.bare text) => bareValue text
    | some .plus => number (← bareWord)
    | some .openBrace =>
      skipBlanks
      if ← eat .closeBrace then return .table [] else return .table (← pairs fuel [])
    | some .openBracket => return .array (← items fuel)
    | _ => throw (.expected "a value")

/-- The keys and values of a table in braces, up to its end. -/
def pairs : Nat → Entries → Reader Entries
  | 0, _ => throw (.expected "a closing brace")
  | fuel + 1, entries => do
    let path ← dottedKey
    expect .equals "an equals"
    skipBlanks
    let entries ← addDotted path (← value fuel) entries
    skipBlanks
    if ← eat .closeBrace then return entries
    expect .comma "a comma"
    skipBlanks
    pairs fuel entries

/-- The values of an array up to its end. A comma may stand behind the last one. -/
def items : Nat → Reader (List Value)
  | 0 => throw (.expected "a closing bracket")
  | fuel + 1 => do
    skipGap
    if ← eat .closeBracket then return []
    let item ← value fuel
    skipGap
    if ← eat .comma then return item :: (← items fuel)
    expect .closeBracket "a closing bracket"
    return [item]

end

/-! ## Lines -/

/-- A line of a document. -/
inductive Line
  | header (path : List String) (isArray : Bool)
  | pair (path : List String) (value : Value)

/-- A line that is not empty. -/
def line : Reader Line := do
  if ← eat .openBracket then
    let isArray ← eat .openBracket
    skipBlanks
    let path ← dottedKey
    expect .closeBracket "a right bracket"
    if isArray then expect .closeBracket "a right bracket"
    skipBlanks
    lineEnd
    return .header path isArray
  else
    let path ← dottedKey
    expect .equals "an equals"
    skipBlanks
    let v ← value ((← get).length + 1)
    skipBlanks
    lineEnd
    return .pair path v

/-- All lines that are not empty. -/
def lines : Nat → Reader (List Line)
  | 0 => return []
  | fuel + 1 => do
    skipGap
    if (← get).isEmpty then return []
    let l ← line
    return l :: (← lines fuel)

end Reader

/-! ## Sections -/

/-- A table of a document as it is written: the header, and the lines below it. -/
structure Section where
  header : List String
  /-- The header adds a table to an array of tables. -/
  isArray : Bool
  entries : Entries

/-- The sections of a document with one more line. The last section comes first. -/
def addLine (sections : List Section) : Reader.Line → Except TomlFault (List Section)
  | .header path isArray => .ok (⟨path, isArray, []⟩ :: sections)
  | .pair path v =>
    match sections with
    | s :: rest => (addDotted path v s.entries).map fun entries => { s with entries } :: rest
    | [] => (addDotted path v []).map fun entries => [⟨[], false, entries⟩]

/-- The elements of an array of tables: each section that opens one, with the sections that
follow up to the next such section. -/
def elements (sections : List Section) : List (Section × List Section) :=
  (sections.foldr (fun s (following, found) =>
    if s.header.isEmpty && s.isArray then ([], (s, following) :: found)
    else (s :: following, found)) ([], [])).2

/-- The table that sections make up. Their headers are those below the table; `own` tells
that the lines of the table itself were seen before. A table is written once. -/
def assemble : Nat → Bool → List Section → Except TomlFault Entries
  | 0, _, _ | _, _, [] => .ok []
  | fuel + 1, own, s :: rest =>
    match s.header with
    | [] =>
      if own || s.isArray then .error (.repeated "")
      else (assemble fuel true rest).map (s.entries ++ ·)
    | k :: below => do
      let isUnder := fun (t : Section) => t.header.head? = some k
      let under := ((s :: rest).filter isUnder).map fun t => { t with header := t.header.drop 1 }
      let v ←
        if below.isEmpty && s.isArray then do
          let tables ← (elements under).mapM fun (first, following) =>
            (assemble fuel true following).map fun entries => Value.table (first.entries ++ entries)
          pure (.array tables)
        else (assemble fuel false under).map .table
      return (k, v) :: (← assemble fuel own (rest.filter fun t => !isUnder t))

/-- The table of a document. -/
def parse (text : String) : Except TomlFault Entries := do
  let words ← tokens text
  let (lines, _) ← (Reader.lines (words.length + 1)).run words
  let sections ← lines.foldlM addLine []
  let steps := (sections.map fun s => s.header.length + 1).foldr (· + ·) 0
  assemble steps false sections.reverse

end ClassAtlas.Toml
