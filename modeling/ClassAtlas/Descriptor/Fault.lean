-- What can be wrong with the bytes of a class descriptor, and the wording of each fault.
import ClassAtlas.Bytes

namespace ClassAtlas

/-- Why a class descriptor cannot be read. -/
inductive DescriptorFault
  /-- The bytes end too early. The offset is where the cursor stood. -/
  | unexpectedEnd (offset : Nat)
  /-- The descriptor does not start with the magic word. -/
  | wrongMagic (found : UInt32)
  /-- The format is older than the oldest one that is read. -/
  | oldVersion (major minor : UInt16)
  /-- The constant at this index has a tag that names no kind. -/
  | unknownConstant (tag : UInt8) (index : UInt16)
  /-- The index is zero or beyond the pool. -/
  | noSuchConstant (index : UInt16) (size : Nat)
  /-- The constant at the index is of another kind. -/
  | wrongConstant (index : UInt16) (expected : String)
  /-- The tag of an annotation value names no kind. -/
  | unknownElementTag (tag : UInt8)
  /-- The values of an annotation nest too deep. -/
  | tooDeep (limit : Nat)
deriving DecidableEq

namespace DescriptorFault

/-- The hexadecimal digits of a number, in upper case. -/
def hexDigits (n : Nat) : List Char := (Nat.toDigits 16 n).map Char.toUpper

/-- A 32-bit word in eight hexadecimal digits. -/
def hex32 (n : UInt32) : String :=
  let digits := hexDigits n.toNat
  String.ofList (List.replicate (8 - digits.length) '0' ++ digits)

/-- The wording of a fault. -/
def message : DescriptorFault → String
  | unexpectedEnd offset => s!"unexpected end of descriptor at offset {offset}"
  | wrongMagic found => "invalid magic cookie 0x" ++ hex32 found
  | oldVersion major minor => s!"unsupported format version {major}.{minor}"
  | unknownConstant tag index => s!"unsupported constant pool tag {tag} at index {index}"
  | noSuchConstant index size => s!"invalid constant pool index {index} (pool size {size})"
  | wrongConstant index expected => s!"constant pool index {index} is not a {expected} entry"
  | unknownElementTag tag =>
    "invalid annotation element tag '" ++ String.ofList [Char.ofNat tag.toNat] ++ "'"
  | tooDeep limit => s!"annotation values nested deeper than {limit}"

end DescriptorFault

end ClassAtlas
