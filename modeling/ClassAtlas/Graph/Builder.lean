-- Collecting class definitions. Many definitions of one name may arrive, in any order: the
-- one that comes first in the order of the class path is authoritative and shadows the rest.
import ClassAtlas.Graph.Mention

namespace ClassAtlas

/-! ## Definitions and their order -/

/-- Where a definition comes from: its root, the place of that root on the class path, and
the place and the name of its entry in the root. -/
structure Provenance where
  rank : Nat
  ordinal : Nat
  rootPath : String
  entryName : String
  location : String
  module : Option String
deriving DecidableEq

/-- Whether `a` arrives before `b`: from an earlier root, or earlier from the same root. -/
def Provenance.precedes (a b : Provenance) : Bool :=
  a.rank < b.rank || (a.rank == b.rank && a.ordinal < b.ordinal)

structure Definition where
  record : ClassRecord
  provenance : Provenance

/-- The name that a definition is for. -/
def Definition.name (d : Definition) : String := d.record.name

/-- All definitions of one name. -/
structure Slot where
  authoritative : Definition
  /-- The edges of the definition that counts. Those that do not count have none. -/
  edges : List Edge
  /-- The definitions that do not count, in the order in which they lost. -/
  shadows : List Definition

def Slot.name (s : Slot) : String := s.authoritative.name

/-! ## Recording -/

/-- A collection of definitions, one slot for each name. -/
structure GraphBuilder where
  slots : List Slot
  /-- How many edges were recorded before there was any definition of their target. -/
  forwardReferences : Nat

/-- What became of a recorded definition. -/
inductive RecordOutcome
  /-- It is the first one of its name. -/
  | recorded
  /-- It takes the place of one that arrives later. -/
  | displaced
  /-- It arrives no earlier than another one of its name. -/
  | shadowed
deriving DecidableEq

namespace GraphBuilder

def empty : GraphBuilder := ⟨[], 0⟩

/-- Whether there is a definition of a name. -/
def contains (b : GraphBuilder) (name : String) : Bool := b.slots.any fun s => s.name = name

/-- The number of names. -/
def size (b : GraphBuilder) : Nat := b.slots.length

/-- What recording a definition comes to. -/
def outcome (b : GraphBuilder) (d : Definition) : RecordOutcome :=
  match b.slots.find? fun s => s.name = d.name with
  | none => .recorded
  | some slot =>
    if d.provenance.precedes slot.authoritative.provenance then .displaced else .shadowed

/-- A slot with one more definition. A definition that is displaced loses its edges. -/
def extendSlot (slot : Slot) (d : Definition) : Slot :=
  if d.provenance.precedes slot.authoritative.provenance then
    ⟨d, d.record.edges, slot.shadows ++ [slot.authoritative]⟩
  else { slot with shadows := slot.shadows ++ [d] }

/-- The slots with one more definition, in a new slot if its name is new. -/
def insert (d : Definition) : List Slot → List Slot
  | [] => [⟨d, d.record.edges, []⟩]
  | slot :: rest => if slot.name = d.name then extendSlot slot d :: rest else slot :: insert d rest

/-- How many edges of a definition have a target without any definition. -/
def forwardCount (b : GraphBuilder) (d : Definition) : Nat :=
  (d.record.edges.filter fun e => !b.contains e.target).length

/-- Records a definition. The edges of one that is shadowed do not count. -/
def record (b : GraphBuilder) (d : Definition) : GraphBuilder where
  slots := insert d b.slots
  forwardReferences :=
    if b.outcome d = .shadowed then b.forwardReferences
    else b.forwardReferences + b.forwardCount d

/-- Records definitions one after the other. -/
def recordAll (b : GraphBuilder) (definitions : List Definition) : GraphBuilder :=
  definitions.foldl record b

end GraphBuilder

end ClassAtlas
