-- Names of classes. A class has a dotted name (`a.b.Outer$Inner`) in this library and a
-- slashed one (`a/b/Outer$Inner`) inside a descriptor; its package is what stands before
-- the last dot.
import ClassAtlas.Text.Split

namespace ClassAtlas.Name

/-- The dotted form of a slashed name. -/
def dotted (name : String) : String := Text.replaceChar '/' '.' name

/-- The slashed form of a dotted name. -/
def slashed (name : String) : String := Text.replaceChar '.' '/' name

/-- The package of a class: the name before its last dot, empty when there is none. -/
def package (name : String) : String :=
  match Text.splitLast? '.' name.toList with
  | some (before, _) => String.ofList before
  | none => ""

/-- The last part of a class name, after its last dot and then after its last `$`. -/
def simple (name : String) : String :=
  String.ofList (Text.afterLast '$' (Text.afterLast '.' name.toList))

/-- The type descriptor of a class, `La/b/C;` for `a.b.C`. -/
def descriptor (name : String) : String := "L" ++ slashed name ++ ";"

/-- The dotted name of the class that a type descriptor names. A text that is no descriptor
of a class is taken as a slashed name. -/
def ofDescriptor (text : String) : String :=
  match (Text.dropFront? ['L'] text.toList).bind (Text.dropEnd? [';']) with
  | some name => dotted (String.ofList name)
  | none => dotted text

/-- The dotted name of the class behind the brackets of an array descriptor, if there is one. -/
def ofElementDescriptor? (text : String) : Option String :=
  let element := text.toList.dropWhile (· = '[')
  if element.head? = some 'L' then some (ofDescriptor (String.ofList element)) else none

end ClassAtlas.Name
