-- What can go wrong in a scan, and the wording of each fault. A fault of one entry or of
-- one path is reported and the scan goes on.
import ClassAtlas.Descriptor.Fault
import ClassAtlas.Signature.Grammar
import ClassAtlas.Text.Elapsed

namespace ClassAtlas

inductive ScanFault
  /-- A path of the class path does not exist. -/
  | pathNotFound (path : String)
  /-- A root or an entry cannot be read. -/
  | unreadable (location : String)
  /-- A root that should be an archive is none. -/
  | notAnArchive (location : String)
  | malformedDescriptor (location : String) (fault : DescriptorFault)
  /-- A signature of a member or of a class, told by the context, cannot be read. -/
  | malformedSignature (location context : String) (fault : SignatureFault)
  | unresolvedSymbol (name : String)
  /-- An archive lies deeper inside other archives than the limit allows. -/
  | nestedTooDeep (location : String) (limit : Nat)
  | cyclicHierarchy (name : String)
  | cancelled
  /-- The time is up. The nanoseconds since the start are told if they are known. -/
  | timedOut (nanoseconds : Option Nat)
  | badSettings (reason : String)
deriving DecidableEq

namespace ScanFault

/-- The name of the kind of a fault. -/
def label : ScanFault → String
  | pathNotFound _ => "PathNotFound"
  | unreadable _ | notAnArchive _ => "ArchiveRead"
  | malformedDescriptor _ _ => "MalformedDescriptor"
  | malformedSignature _ _ _ => "MalformedSignature"
  | unresolvedSymbol _ => "UnresolvedSymbol"
  | nestedTooDeep _ _ => "RecursionLimitExceeded"
  | cyclicHierarchy _ => "CyclicHierarchy"
  | cancelled => "Cancelled"
  | timedOut _ => "TimedOut"
  | badSettings _ => "Config"

/-- The wording of a fault. -/
def message : ScanFault → String
  | pathNotFound path => "path not found: " ++ path
  | unreadable location => "cannot read " ++ location
  | notAnArchive location => "cannot read " ++ location ++ ": file is not an archive"
  | malformedDescriptor location fault =>
    "malformed descriptor " ++ location ++ ": " ++ fault.message
  | malformedSignature location context fault =>
    "malformed signature in " ++ location ++ " (" ++ context ++ "): " ++ fault.message
  | unresolvedSymbol name => "unresolved symbol: " ++ name
  | nestedTooDeep location limit => s!"nested archive {location} exceeds depth limit {limit}"
  | cyclicHierarchy name => "class " ++ name ++ " is its own ancestor"
  | cancelled => "scan cancelled"
  | timedOut none => "scan timed out"
  | timedOut (some nanoseconds) => "scan timed out after " ++ Text.elapsed nanoseconds
  | badSettings reason => "invalid configuration: " ++ reason

end ScanFault

/-- A fault that was reported, with the bytes of the descriptor at fault if there is one. -/
structure Diagnostic where
  fault : ScanFault
  payload : Option Bytes
deriving DecidableEq

/-- A report without bytes. -/
def Diagnostic.ofFault (fault : ScanFault) : Diagnostic := ⟨fault, none⟩

end ClassAtlas
