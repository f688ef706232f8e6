-- Reading signatures. Each decision is taken on the next character, so the reader only
-- moves forward, and a reader that cannot go on tells where it stands.
-- Plain type descriptors are signatures too.
import ClassAtlas.Signature.Basic
import ClassAtlas.Text.Utf8

namespace ClassAtlas

/-- Why a text is no signature. An offset counts the bytes of the text before it. -/
inductive SignatureFault
  | unexpectedEnd (offset : Nat)
  | unexpectedChar (found : Char) (offset : Nat) (expected : String)
  /-- A signature ends before the text does. -/
  | trailing (offset : Nat)
  | emptyName (offset : Nat)
  /-- Type arguments nest too deep. -/
  | tooDeep (offset limit : Nat)
deriving DecidableEq

/-- The wording of a fault. -/
def SignatureFault.message : SignatureFault → String
  | unexpectedEnd offset => s!"unexpected end of signature at offset {offset}"
  | unexpectedChar found offset expected =>
    s!"unexpected character '{found}' at offset {offset}, expected {expected}"
  | trailing offset => s!"trailing input at offset {offset}"
  | emptyName offset => s!"empty identifier at offset {offset}"
  | tooDeep offset limit => s!"type arguments nested deeper than {limit} at offset {offset}"

namespace Signature

/-! ## Readers -/

/-- Why a reader stops. -/
inductive Cause
  | ended
  | unexpected (found : Char) (expected : String)
  | trailing
  | emptyName
  | tooDeep
deriving DecidableEq

/-- A reader that stopped, with the text that it did not read. -/
structure Stuck where
  cause : Cause
  rest : List Char
deriving DecidableEq

/-- A reader takes its part off the front of a text, or stops. -/
abbrev Parser := StateT (List Char) (Except Stuck)

/-- Stops at the front of the text. -/
def stop {α : Type} (cause : Cause) : Parser α := fun rest => .error ⟨cause, rest⟩

/-- The next character, which stays. -/
def peek : Parser Char := fun rest =>
  match rest with
  | [] => .error ⟨.ended, rest⟩
  | c :: _ => .ok (c, rest)

/-- Moves past the next character. -/
def advance : Parser Unit := fun rest => .ok ((), rest.drop 1)

/-- Whether the text is read to its end. -/
def atEnd : Parser Bool := fun rest => .ok (rest.isEmpty, rest)

/-- Stops because something else was expected. -/
def unexpected {α : Type} (expected : String) : Parser α := fun rest =>
  match rest with
  | [] => .error ⟨.ended, rest⟩
  | c :: _ => .error ⟨.unexpected c expected, rest⟩

/-- Takes the character `c`. -/
def expect (c : Char) (expected : String) : Parser Unit := do
  if (← peek) = c then advance else unexpected expected

/-- Takes steps from a state until one gives an answer. Each step but the last takes at
least one character, so there are at most as many as `fuel` counts. -/
def stepsWith {σ α : Type} (step : σ → Parser (σ ⊕ α)) : Nat → σ → Parser α
  | 0, _ => stop .ended
  | fuel + 1, s => do
    match ← step s with
    | .inl next => stepsWith step fuel next
    | .inr answer => return answer

/-- Takes steps from a state until one gives an answer. -/
def steps {σ α : Type} (step : σ → Parser (σ ⊕ α)) (s : σ) : Parser α := fun rest =>
  stepsWith step (rest.length + 1) s rest

/-! ## Names -/

/-- The characters that end a name. -/
def endsName (c : Char) : Bool := c ∈ ['.', ';', '[', '/', '<', '>', ':']

/-- A name: at least one character, up to the next one that ends names. -/
def name : Parser String := fun rest =>
  match rest.takeWhile (fun c => !endsName c) with
  | [] => .error ⟨if rest.isEmpty then .ended else .emptyName, rest⟩
  | front => .ok (String.ofList front, rest.dropWhile fun c => !endsName c)

/-! ## Types -/

/-- The deepest nesting of type arguments that is read. -/
def maxNesting : Nat := 256

/-- A type variable. -/
def typeVariable : Parser String := do
  expect 'T' "'T'"
  let n ← name
  expect ';' "';'"
  return n

/-- One step through the parts of a package. The name that no slash follows is the class. -/
def packageStep (package : List String) : Parser (List String ⊕ List String × String) := do
  let n ← name
  if (← peek) = '/' then
    advance
    return .inl (package ++ [n])
  else return .inr (package, n)

/-- Type arguments, if the next character opens them. -/
def optionalArguments (arguments : Parser (List TypeArgument)) : Parser (List TypeArgument) := do
  if (← peek) = '<' then arguments else return []

/-- One step through the inner levels of a class type. -/
def innerStep (arguments : Parser (List TypeArgument)) (enclosing : ClassType) :
    Parser (ClassType ⊕ ClassType) := do
  match ← peek with
  | '.' => do
    advance
    let n ← name
    if (← peek) = '/' then unexpected "'.' or ';' after inner class"
    else return .inl (.inner enclosing n (← optionalArguments arguments))
  | ';' => do
    advance
    return .inr enclosing
  | _ => unexpected "'.' or ';'"

/-- A class type, given a reader of type arguments. -/
def classTypeWith (arguments : Parser (List TypeArgument)) : Parser ClassType := do
  expect 'L' "'L'"
  let (package, n) ← steps packageStep []
  let outer ← optionalArguments arguments
  steps (innerStep arguments) (.topLevel package n outer)

/-- How many brackets come next. They are taken. -/
def brackets : Parser Nat := fun rest =>
  .ok ((rest.takeWhile (· = '[')).length, rest.dropWhile (· = '['))

/-- A reference type that is no array. -/
def plainReference (arguments : Parser (List TypeArgument)) : Parser ReferenceType := do
  match ← peek with
  | 'L' => return .classType (← classTypeWith arguments)
  | 'T' => return .typeVariable (← typeVariable)
  | _ => unexpected "reference type"

/-- A primitive type, or what another reader takes. -/
def baseOr (other : Parser ReferenceType) : Parser ValueType := do
  match BaseType.ofCode? (← peek) with
  | some b => do
    advance
    return .base b
  | none => return .reference (← other)

/-- A type that is no array. -/
def plainType (arguments : Parser (List TypeArgument)) : Parser ValueType :=
  baseOr (plainReference arguments)

/-- An array of as many dimensions. -/
def arrayOf : Nat → ValueType → ValueType
  | 0, t => t
  | dimensions + 1, t => .reference (.array (arrayOf dimensions t))

/-- A reference type, given a reader of type arguments. -/
def referenceWith (arguments : Parser (List TypeArgument)) : Parser ReferenceType := do
  match ← brackets with
  | 0 => plainReference arguments
  | dimensions + 1 => return .array (arrayOf dimensions (← plainType arguments))

/-- One step through a list of type arguments. The list may close once it is not empty. -/
def argumentStep (reference : Parser ReferenceType) (read : List TypeArgument) :
    Parser (List TypeArgument ⊕ List TypeArgument) := do
  let c ← peek
  if c = '>' ∧ ¬read.isEmpty then
    advance
    return .inr read
  else if c = '*' then
    advance
    return .inl (read ++ [.any])
  else if c = '+' then
    advance
    return .inl (read ++ [.of .upper (← reference)])
  else if c = '-' then
    advance
    return .inl (read ++ [.of .lower (← reference)])
  else return .inl (read ++ [.of .exactly (← reference)])

/-- Type arguments in angle brackets, nested at most `levels` deep. -/
def arguments : Nat → Parser (List TypeArgument)
  | 0 => do
    expect '<' "'<'"
    stop .tooDeep
  | levels + 1 => do
    expect '<' "'<'"
    steps (argumentStep (referenceWith (arguments levels))) []

/-- A reference type. -/
def reference : Parser ReferenceType := referenceWith (arguments maxNesting)

/-- A class type. -/
def classType : Parser ClassType := classTypeWith (arguments maxNesting)

/-- A type. -/
def valueType : Parser ValueType := baseOr reference

/-! ## Declarations -/

/-- The class bound of a type parameter, if a reference type comes next. -/
def classBound : Parser (Option ReferenceType) := do
  if (← peek) ∈ ['L', 'T', '['] then return some (← reference) else return none

/-- One step through the interface bounds of a type parameter. -/
def boundStep (read : List ReferenceType) : Parser (List ReferenceType ⊕ List ReferenceType) := do
  if (← peek) = ':' then
    advance
    return .inl (read ++ [← reference])
  else return .inr read

/-- A type parameter. -/
def typeParameter : Parser TypeParameter := do
  let n ← name
  expect ':' "':'"
  let first ← classBound
  let others ← steps boundStep []
  return ⟨n, first, others⟩

/-- One step through a list of type parameters. -/
def typeParameterStep (read : List TypeParameter) :
    Parser (List TypeParameter ⊕ List TypeParameter) := do
  let p ← typeParameter
  if (← peek) = '>' then
    advance
    return .inr (read ++ [p])
  else return .inl (read ++ [p])

/-- Type parameters in angle brackets, if the text opens with them. -/
def typeParameters : Parser (List TypeParameter) := fun rest =>
  match rest with
  | '<' :: more => steps typeParameterStep [] more
  | _ => .ok ([], rest)

/-- One step through a list of items that ends with the text. -/
def stepToEnd {α : Type} (item : Parser α) (read : List α) : Parser (List α ⊕ List α) := do
  if ← atEnd then return .inr read
  else return .inl (read ++ [← item])

/-- A class signature. -/
def classSignature : Parser ClassSignature := do
  let parameters ← typeParameters
  let superclass ← classType
  let interfaces ← steps (stepToEnd classType) []
  return ⟨parameters, superclass, interfaces⟩

/-- One step through the parameters of a method, which end with a parenthesis. -/
def parameterStep (read : List ValueType) : Parser (List ValueType ⊕ List ValueType) := do
  if (← peek) = ')' then
    advance
    return .inr read
  else return .inl (read ++ [← valueType])

/-- The result of a method: a type, or nothing for `V`. -/
def result : Parser (Option ValueType) := do
  if (← peek) = 'V' then
    advance
    return none
  else return some (← valueType)

/-- A type that a method throws, with the sign before it. -/
def thrownType : Parser ThrownType := do
  expect '^' "'^'"
  match ← peek with
  | 'L' => return .classType (← classType)
  | 'T' => return .typeVariable (← typeVariable)
  | _ => unexpected "class or type variable"

/-- A method signature. -/
def methodSignature : Parser MethodSignature := do
  let typeParams ← typeParameters
  expect '(' "'('"
  let parameters ← steps parameterStep []
  let returned ← result
  let throws ← steps (stepToEnd thrownType) []
  return ⟨typeParams, parameters, returned, throws⟩

/-! ## Whole texts -/

/-- The fault of a reader that stopped in a text, with its place in bytes. -/
def Stuck.toFault (text : List Char) (s : Stuck) : SignatureFault :=
  let offset := Utf8.length text - Utf8.length s.rest
  match s.cause with
  | .ended => .unexpectedEnd offset
  | .unexpected found expected => .unexpectedChar found offset expected
  | .trailing => .trailing offset
  | .emptyName => .emptyName offset
  | .tooDeep => .tooDeep offset maxNesting

/-- Reads a whole text. -/
def parse {α : Type} (parser : Parser α) (text : String) : Except SignatureFault α :=
  match parser text.toList with
  | .ok (a, []) => .ok a
  | .ok (_, rest) => .error (Stuck.toFault text.toList ⟨.trailing, rest⟩)
  | .error stuck => .error (stuck.toFault text.toList)

end Signature

/-- The class signature that a text spells. -/
def ClassSignature.parse (text : String) : Except SignatureFault ClassSignature :=
  Signature.parse Signature.classSignature text

/-- The method signature that a text spells. A plain method descriptor is one too. -/
def MethodSignature.parse (text : String) : Except SignatureFault MethodSignature :=
  Signature.parse Signature.methodSignature text

/-- The type that a text spells. A plain field descriptor is one too. -/
def ValueType.parse (text : String) : Except SignatureFault ValueType :=
  Signature.parse Signature.valueType text

end ClassAtlas
