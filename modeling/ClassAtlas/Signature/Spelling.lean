-- The canonical spelling of a signature. Each signature has one, and it is what the
-- grammar reads back.
import ClassAtlas.Signature.Basic

namespace ClassAtlas

/-! ## Types -/

mutual

/-- A primitive type is its letter. -/
def ValueType.spell : ValueType → List Char
  | .base b => [b.code]
  | .reference r => r.spell

/-- A class type ends with a semicolon, and an array is a bracket before its element. -/
def ReferenceType.spell : ReferenceType → List Char
  | .classType c => c.spellOpen ++ [';']
  | .typeVariable name => 'T' :: name.toList ++ [';']
  | .array element => '[' :: element.spell

/-- A class type without its semicolon. -/
def ClassType.spellOpen : ClassType → List Char
  | .topLevel package name arguments =>
    'L' :: package.flatMap (fun part => part.toList ++ ['/']) ++ name.toList ++
      spellArguments arguments
  | .inner enclosing name arguments =>
    enclosing.spellOpen ++ '.' :: name.toList ++ spellArguments arguments

/-- A type argument, with a sign for its bound. -/
def TypeArgument.spell : TypeArgument → List Char
  | .any => ['*']
  | .of .exactly r => r.spell
  | .of .upper r => '+' :: r.spell
  | .of .lower r => '-' :: r.spell

/-- Type arguments one after the other. -/
def spellEach : List TypeArgument → List Char
  | [] => []
  | a :: rest => a.spell ++ spellEach rest

/-- Type arguments in angle brackets, or nothing where there are none. -/
def spellArguments : List TypeArgument → List Char
  | [] => []
  | a :: rest => '<' :: a.spell ++ spellEach rest ++ ['>']

end

/-- A class type with its semicolon. -/
def ClassType.spell (c : ClassType) : List Char := c.spellOpen ++ [';']

/-! ## Declarations -/

/-- A type parameter: its name, a colon, its class bound if it has one, and each interface
bound after a colon. -/
def TypeParameter.spell (p : TypeParameter) : List Char :=
  p.name.toList ++ ':' :: (p.classBound.map ReferenceType.spell).getD [] ++
    p.interfaceBounds.flatMap fun bound => ':' :: bound.spell

/-- Type parameters in angle brackets, or nothing where there are none. -/
def spellParameters (parameters : List TypeParameter) : List Char :=
  if parameters.isEmpty then [] else '<' :: parameters.flatMap TypeParameter.spell ++ ['>']

/-- The spelling of a class signature: its superclass and then its interfaces. -/
def ClassSignature.spell (s : ClassSignature) : List Char :=
  spellParameters s.typeParameters ++ s.superclass.spell ++ s.interfaces.flatMap ClassType.spell

/-- The spelling of a method signature: parameters, result, and each thrown type after `^`. -/
def MethodSignature.spell (s : MethodSignature) : List Char :=
  spellParameters s.typeParameters ++ '(' :: s.parameters.flatMap ValueType.spell ++ ')' ::
    (s.result.map ValueType.spell).getD ['V'] ++
    s.throws.flatMap fun t => '^' :: t.toReference.spell

end ClassAtlas
