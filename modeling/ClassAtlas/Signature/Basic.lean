-- Generic signatures: the types of fields, methods and classes with their type arguments.
-- A class type is a class of a package, or an inner class of another class type, so the
-- binary name joins every inner level with `$`.
import ClassAtlas.Text.Split

namespace ClassAtlas

/-- A primitive type. -/
inductive BaseType
  | byte
  | char
  | double
  | float
  | int
  | long
  | short
  | boolean
deriving DecidableEq

/-- How a type argument stands to its type. -/
inductive ArgumentBound
  /-- The type itself. -/
  | exactly
  /-- Any subtype of it. -/
  | upper
  /-- Any supertype of it. -/
  | lower
deriving DecidableEq

mutual

/-- A type that a field or a parameter may have. -/
inductive ValueType
  | base (b : BaseType)
  | reference (r : ReferenceType)

/-- A type that is not primitive. -/
inductive ReferenceType
  | classType (c : ClassType)
  | typeVariable (name : String)
  | array (element : ValueType)

/-- A class with its type arguments. -/
inductive ClassType
  /-- A class of a package. The package is given by its parts. -/
  | topLevel (package : List String) (name : String) (arguments : List TypeArgument)
  /-- An inner class of another class type. -/
  | inner (enclosing : ClassType) (name : String) (arguments : List TypeArgument)

/-- A type argument. -/
inductive TypeArgument
  | any
  | of (bound : ArgumentBound) (r : ReferenceType)

end

/-- A type parameter with its bounds. -/
structure TypeParameter where
  name : String
  classBound : Option ReferenceType
  interfaceBounds : List ReferenceType

/-- A type that a method may throw. -/
inductive ThrownType
  | classType (c : ClassType)
  | typeVariable (name : String)

/-- The generic signature of a class. -/
structure ClassSignature where
  typeParameters : List TypeParameter
  superclass : ClassType
  interfaces : List ClassType

/-- The generic signature of a method. A method without a result is `void`. -/
structure MethodSignature where
  typeParameters : List TypeParameter
  parameters : List ValueType
  result : Option ValueType
  throws : List ThrownType

namespace BaseType

/-- The letter that stands for a primitive type in a signature. -/
def code : BaseType → Char
  | byte => 'B'
  | char => 'C'
  | double => 'D'
  | float => 'F'
  | int => 'I'
  | long => 'J'
  | short => 'S'
  | boolean => 'Z'

/-- The primitive type that a letter stands for. -/
def ofCode? : Char → Option BaseType
  | 'B' => some byte
  | 'C' => some char
  | 'D' => some double
  | 'F' => some float
  | 'I' => some int
  | 'J' => some long
  | 'S' => some short
  | 'Z' => some boolean
  | _ => none

/-- The name of a primitive type. -/
def name : BaseType → String
  | byte => "byte"
  | char => "char"
  | double => "double"
  | float => "float"
  | int => "int"
  | long => "long"
  | short => "short"
  | boolean => "boolean"

end BaseType

/-- A thrown type as a type. -/
def ThrownType.toReference : ThrownType → ReferenceType
  | .classType c => .classType c
  | .typeVariable name => .typeVariable name

/-! ## Names -/

/-- The binary name of a class type, without its type arguments. -/
def ClassType.binaryName : ClassType → String
  | .topLevel package name _ =>
    if package.isEmpty then name else Text.joined "." package ++ "." ++ name
  | .inner enclosing name _ => enclosing.binaryName ++ "$" ++ name

mutual

/-- The class that is left of a type when arrays and type arguments are taken away. -/
def ValueType.erasedClass? : ValueType → Option String
  | .base _ => none
  | .reference r => r.erasedClass?

/-- The class that is left of a reference type. -/
def ReferenceType.erasedClass? : ReferenceType → Option String
  | .classType c => some c.binaryName
  | .typeVariable _ => none
  | .array element => element.erasedClass?

end

/-! ## The classes that a type names -/

mutual

/-- The classes that a type names, from left to right. -/
def ValueType.classes : ValueType → List String
  | .base _ => []
  | .reference r => r.classes

/-- The classes that a reference type names. -/
def ReferenceType.classes : ReferenceType → List String
  | .classType c => c.binaryName :: c.argumentClasses
  | .typeVariable _ => []
  | .array element => element.classes

/-- The classes that the type arguments of a class type name, the outer levels first. -/
def ClassType.argumentClasses : ClassType → List String
  | .topLevel _ _ arguments => argumentListClasses arguments
  | .inner enclosing _ arguments => enclosing.argumentClasses ++ argumentListClasses arguments

/-- The classes that a type argument names. -/
def TypeArgument.classes : TypeArgument → List String
  | .any => []
  | .of _ r => r.classes

/-- The classes that some type arguments name. -/
def argumentListClasses : List TypeArgument → List String
  | [] => []
  | a :: rest => a.classes ++ argumentListClasses rest

end

/-- The classes that a class type names, itself first. -/
def ClassType.classes (c : ClassType) : List String := (ReferenceType.classType c).classes

/-- The classes that a thrown type names. -/
def ThrownType.classes (t : ThrownType) : List String := t.toReference.classes

/-- The classes that the bounds of a type parameter name. -/
def TypeParameter.classes (p : TypeParameter) : List String :=
  (p.classBound.toList ++ p.interfaceBounds).flatMap ReferenceType.classes

/-- The classes that the bounds of the type parameters of a method name. -/
def MethodSignature.boundClasses (s : MethodSignature) : List String :=
  s.typeParameters.flatMap TypeParameter.classes

/-- The classes that a class signature names. -/
def ClassSignature.classes (s : ClassSignature) : List String :=
  s.typeParameters.flatMap TypeParameter.classes ++ s.superclass.classes ++
    s.interfaces.flatMap ClassType.classes

/-! ## Display -/

/-- A list in angle brackets, or nothing for an empty list. -/
def angled (arguments : List String) : String :=
  if arguments.isEmpty then "" else "<" ++ Text.joined ", " arguments ++ ">"

mutual

/-- A type as a reader of source code writes it. -/
def ValueType.display : ValueType → String
  | .base b => b.name
  | .reference r => r.display

/-- A reference type as a reader of source code writes it. -/
def ReferenceType.display : ReferenceType → String
  | .classType c => c.display
  | .typeVariable name => name
  | .array element => element.display ++ "[]"

/-- A class type with its type arguments in angle brackets. -/
def ClassType.display : ClassType → String
  | .topLevel package name arguments =>
    (if package.isEmpty then name else Text.joined "." package ++ "." ++ name) ++
      angled (displayEach arguments)
  | .inner enclosing name arguments =>
    enclosing.display ++ "$" ++ name ++ angled (displayEach arguments)

/-- A type argument: a type, or a wildcard with its bound. -/
def TypeArgument.display : TypeArgument → String
  | .any => "?"
  | .of .exactly r => r.display
  | .of .upper r => "? extends " ++ r.display
  | .of .lower r => "? super " ++ r.display

/-- Each type argument as a reader of source code writes it. -/
def displayEach : List TypeArgument → List String
  | [] => []
  | a :: rest => a.display :: displayEach rest

end

end ClassAtlas
