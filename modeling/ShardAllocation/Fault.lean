/-
The faults that operations of the library report.

A fault names its cause; `message` gives the wording and `isFatal` tells the faults
after which the routing state can no longer be trusted.
-/

namespace ShardAllocation

/-- Why an operation failed. -/
inductive Fault where
  /-- A routing invariant was broken, which a caller of the library never causes. -/
  | invariantViolation (detail : String)
  | indexNotFound (name : String)
  | shardNotFound (shard : String)
  | indexAlreadyExists (name : String)
  | invalidConfig (detail : String)
  /-- The configuration could not be read. -/
  | config (detail : String)
  | coordinatorClosed
  | internal (detail : String)
  deriving DecidableEq, Repr

namespace Fault

/-- The wording of a fault. -/
def message : Fault → String
  | invariantViolation detail => s!"Routing invariant violated: {detail}"
  | indexNotFound name => s!"Index not found: {name}"
  | shardNotFound shard => s!"Shard not found: {shard}"
  | indexAlreadyExists name => s!"Index already exists: {name}"
  | invalidConfig detail => s!"Invalid configuration: {detail}"
  | config detail => s!"Config error: {detail}"
  | coordinatorClosed => "Coordinator is shut down"
  | internal detail => s!"Internal error: {detail}"

/-- After a fatal fault the routing state can no longer be trusted. -/
def isFatal : Fault → Bool
  | invariantViolation _ => true
  | internal _ => true
  | _ => false

/-- The same fault for another caller.  A reading fault is passed on by its wording. -/
def duplicate : Fault → Fault
  | config detail => invalidConfig detail
  | fault => fault

end Fault

end ShardAllocation
