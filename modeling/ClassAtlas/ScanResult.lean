-- The outcome of a scan: the graph, the roots that were scanned, the faults on the way and
-- some numbers.
import ClassAtlas.ClassPath.Basic
import ClassAtlas.Graph.Access

namespace ClassAtlas

/-- How a scan ended. -/
inductive Completion
  | complete
  | cancelled
  | timedOut
deriving DecidableEq

namespace Completion

/-- The name of an ending in a report. -/
def label : Completion → String
  | complete => "complete"
  | cancelled => "cancelled"
  | timedOut => "timed_out"

/-- The name of an ending in a message. -/
def title : Completion → String
  | complete => "Complete"
  | cancelled => "Cancelled"
  | timedOut => "TimedOut"

end Completion

structure ScanResult where
  graph : ClassGraph
  roots : List ScanRoot
  diagnostics : List Diagnostic
  completion : Completion
  /-- How many entries were read. -/
  entries : Nat
  /-- How many roots came out of the cache. -/
  cachedRoots : Nat

end ClassAtlas
