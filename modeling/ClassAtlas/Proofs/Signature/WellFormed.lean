-- Signatures that have a spelling which can be read back: their names are names, and their
-- type arguments do not nest deeper than a reader goes.
import ClassAtlas.Signature.Grammar
import ClassAtlas.Signature.Spelling

namespace ClassAtlas

/-- A name is not empty, and no character of it ends names. -/
def IsName (name : String) : Prop :=
  name.toList ≠ [] ∧ ∀ c ∈ name.toList, Signature.endsName c = false

mutual

/-- All names in a type are names, and its type arguments nest at most `levels` deep. -/
def ValueType.WellFormed (levels : Nat) : ValueType → Prop
  | .base _ => True
  | .reference r => r.WellFormed levels

def ReferenceType.WellFormed (levels : Nat) : ReferenceType → Prop
  | .classType c => c.WellFormed levels
  | .typeVariable name => IsName name
  | .array element => element.WellFormed levels

def ClassType.WellFormed (levels : Nat) : ClassType → Prop
  | .topLevel package name arguments =>
    (∀ part ∈ package, IsName part) ∧ IsName name ∧ ArgumentsWellFormed levels arguments
  | .inner enclosing name arguments =>
    enclosing.WellFormed levels ∧ IsName name ∧ ArgumentsWellFormed levels arguments

def TypeArgument.WellFormed (levels : Nat) : TypeArgument → Prop
  | .any => True
  | .of _ r => r.WellFormed levels

/-- A list of arguments takes a level. -/
def ArgumentsWellFormed (levels : Nat) : List TypeArgument → Prop
  | [] => True
  | a :: rest => 0 < levels ∧ a.WellFormed (levels - 1) ∧ ArgumentsWellFormed levels rest

end

open Signature (maxNesting)

structure TypeParameter.WellFormed (p : TypeParameter) : Prop where
  name : IsName p.name
  classBound : ∀ r ∈ p.classBound, r.WellFormed maxNesting
  interfaceBounds : ∀ r ∈ p.interfaceBounds, r.WellFormed maxNesting

structure ClassSignature.WellFormed (s : ClassSignature) : Prop where
  typeParameters : ∀ p ∈ s.typeParameters, p.WellFormed
  superclass : s.superclass.WellFormed maxNesting
  interfaces : ∀ c ∈ s.interfaces, c.WellFormed maxNesting

structure MethodSignature.WellFormed (s : MethodSignature) : Prop where
  typeParameters : ∀ p ∈ s.typeParameters, p.WellFormed
  parameters : ∀ t ∈ s.parameters, t.WellFormed maxNesting
  result : ∀ t ∈ s.result, t.WellFormed maxNesting
  throws : ∀ t ∈ s.throws, t.toReference.WellFormed maxNesting

/-! ## Bounds that could be names -/

/-- A type parameter without any bound. -/
def TypeParameter.IsBare (p : TypeParameter) : Prop := p.classBound = none ∧ p.interfaceBounds = []

/-- The name of a type parameter begins as a type does. -/
def TypeParameter.BeginsAsType (p : TypeParameter) : Prop :=
  ∃ c ∈ p.name.toList.head?, c = 'L' ∨ c = 'T'

/-- No type parameter without bounds stands before one that begins as a bound would. -/
def Separated : List TypeParameter → Prop
  | p :: q :: rest => (p.IsBare → ¬ q.BeginsAsType) ∧ Separated (q :: rest)
  | _ => True

end ClassAtlas
