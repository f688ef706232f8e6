-- The constants of a class descriptor and the pool that numbers them. A constant of eight
-- bytes takes two numbers, and the second names nothing. Number 0 names nothing either.
import ClassAtlas.Descriptor.Cursor
import ClassAtlas.Text.ModifiedUtf8

namespace ClassAtlas

/-- One entry of the pool. Numbers of floating point are kept as their bits. -/
inductive Constant
  /-- Number 0, and the second number of a constant of eight bytes. -/
  | unusable
  | text (value : String)
  | integer (value : Int32)
  | float (bits : UInt32)
  | long (value : Int64)
  | double (bits : UInt64)
  | classRef (name : UInt16)
  | string (content : UInt16)
  | fieldRef (owner nameAndType : UInt16)
  | methodRef (owner nameAndType : UInt16)
  | interfaceMethodRef (owner nameAndType : UInt16)
  | nameAndType (name descriptor : UInt16)
  | methodHandle (kind : UInt8) (reference : UInt16)
  | methodType (descriptor : UInt16)
  | dynamic (bootstrap nameAndType : UInt16)
  | invokeDynamic (bootstrap nameAndType : UInt16)
  | moduleRef (name : UInt16)
  | packageRef (name : UInt16)
deriving DecidableEq

namespace Constant

/-- Whether a constant takes two numbers. -/
def isWide : Constant → Bool
  | long _ => true
  | double _ => true
  | _ => false

/-- How many numbers a constant takes. -/
def slots (c : Constant) : Nat := if c.isWide then 2 else 1

/-- The number of the name, if the constant is a class. -/
def classIndex? : Constant → Option UInt16
  | classRef name => some name
  | _ => none

/-! ## Writing -/

/-- The bytes of a constant: the tag of its kind and then its content. -/
def encode : Constant → Bytes
  | unusable => []
  | text value =>
    let bytes := ModifiedUtf8.encode value
    1 :: BigEndian.bytes 2 bytes.length ++ bytes
  | integer value => 3 :: BigEndian.word32 value.toUInt32
  | float bits => 4 :: BigEndian.word32 bits
  | long value => 5 :: BigEndian.word64 value.toUInt64
  | double bits => 6 :: BigEndian.word64 bits
  | classRef name => 7 :: BigEndian.word16 name
  | string content => 8 :: BigEndian.word16 content
  | fieldRef owner member => 9 :: BigEndian.word16 owner ++ BigEndian.word16 member
  | methodRef owner member => 10 :: BigEndian.word16 owner ++ BigEndian.word16 member
  | interfaceMethodRef owner member => 11 :: BigEndian.word16 owner ++ BigEndian.word16 member
  | nameAndType name descriptor => 12 :: BigEndian.word16 name ++ BigEndian.word16 descriptor
  | methodHandle kind reference => 15 :: kind :: BigEndian.word16 reference
  | methodType descriptor => 16 :: BigEndian.word16 descriptor
  | dynamic bootstrap member => 17 :: BigEndian.word16 bootstrap ++ BigEndian.word16 member
  | invokeDynamic bootstrap member => 18 :: BigEndian.word16 bootstrap ++ BigEndian.word16 member
  | moduleRef name => 19 :: BigEndian.word16 name
  | packageRef name => 20 :: BigEndian.word16 name

/-! ## Reading -/

open Decoder

/-- Reads the constant that gets the number `index`. -/
def decode (index : UInt16) : Decoder Constant := do
  let tag ← u1
  match tag with
  | 1 => do
    let length ← u2
    let bytes ← slice length.toNat
    return text (ModifiedUtf8.decode bytes)
  | 3 => return integer (← u4).toInt32
  | 4 => return float (← u4)
  | 5 => return long (← u8).toInt64
  | 6 => return double (← u8)
  | 7 => return classRef (← u2)
  | 8 => return string (← u2)
  | 9 => return fieldRef (← u2) (← u2)
  | 10 => return methodRef (← u2) (← u2)
  | 11 => return interfaceMethodRef (← u2) (← u2)
  | 12 => return nameAndType (← u2) (← u2)
  | 15 => return methodHandle (← u1) (← u2)
  | 16 => return methodType (← u2)
  | 17 => return dynamic (← u2) (← u2)
  | 18 => return invokeDynamic (← u2) (← u2)
  | 19 => return moduleRef (← u2)
  | 20 => return packageRef (← u2)
  | _ => throw (.unknownConstant tag index)

end Constant

/-- The constants of a descriptor by their numbers. -/
structure ConstantPool where
  entries : Array Constant
deriving DecidableEq

namespace ConstantPool

open Decoder

/-- Reads constants until `todo` more numbers are taken. A wide constant at the last number
takes one number more. -/
def decodeEntries : Nat → Array Constant → Decoder (Array Constant)
  | 0, entries => return entries
  | todo + 1, entries => do
    let c ← Constant.decode (UInt16.ofNat entries.size)
    if c.isWide then
      match todo with
      | 0 => return (entries.push c).push .unusable
      | todo + 1 => decodeEntries todo ((entries.push c).push .unusable)
    else decodeEntries todo (entries.push c)

/-- Reads a pool: how many numbers it has, number 0 included, and then its constants. -/
def decode : Decoder ConstantPool := do
  let count ← u2
  let entries ← decodeEntries (count.toNat - 1) #[.unusable]
  return ⟨entries⟩

/-- How many numbers the pool has. -/
def size (pool : ConstantPool) : Nat := pool.entries.size

/-- Whether no number of the pool names a constant. -/
def isEmpty (pool : ConstantPool) : Bool := pool.size ≤ 1

/-! ## Look-up -/

/-- The entry at an index other than zero. -/
def get (pool : ConstantPool) (index : UInt16) : Except DescriptorFault Constant :=
  if index = 0 then .error (.noSuchConstant index pool.size)
  else
    match pool.entries[index.toNat]? with
    | some c => .ok c
    | none => .error (.noSuchConstant index pool.size)

/-- What `view` sees in the constant at an index. `expected` names the kind that it sees. -/
def pick {α : Type} (pool : ConstantPool) (expected : String) (view : Constant → Option α)
    (index : UInt16) : Except DescriptorFault α := do
  match view (← pool.get index) with
  | some a => return a
  | none => throw (.wrongConstant index expected)

/-- The text at an index. -/
def text (pool : ConstantPool) : UInt16 → Except DescriptorFault String :=
  pool.pick "Utf8" fun
    | .text value => some value
    | _ => none

/-- The slashed name of the class at an index. -/
def className (pool : ConstantPool) (index : UInt16) : Except DescriptorFault String := do
  let name ← pool.pick "Class" (fun
    | .classRef name => some name
    | _ => none) index
  pool.text name

/-- The integer at an index. -/
def integer (pool : ConstantPool) : UInt16 → Except DescriptorFault Int32 :=
  pool.pick "Integer" fun
    | .integer value => some value
    | _ => none

/-- The long at an index. -/
def long (pool : ConstantPool) : UInt16 → Except DescriptorFault Int64 :=
  pool.pick "Long" fun
    | .long value => some value
    | _ => none

/-- The bits of the float at an index. -/
def float (pool : ConstantPool) : UInt16 → Except DescriptorFault UInt32 :=
  pool.pick "Float" fun
    | .float bits => some bits
    | _ => none

/-- The bits of the double at an index. -/
def double (pool : ConstantPool) : UInt16 → Except DescriptorFault UInt64 :=
  pool.pick "Double" fun
    | .double bits => some bits
    | _ => none

/-- A look-up for which index zero means that nothing is there. -/
def optionally {α : Type} (look : UInt16 → Except DescriptorFault α) (index : UInt16) :
    Except DescriptorFault (Option α) :=
  if index = 0 then .ok none else (look index).map some

/-- The slashed names of all classes in the pool, in its order. -/
def classNames (pool : ConstantPool) : Except DescriptorFault (List String) :=
  (pool.entries.toList.filterMap Constant.classIndex?).mapM pool.text

end ConstantPool

end ClassAtlas
