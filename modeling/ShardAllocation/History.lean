/-
Failed attempts to place copies.

The history keeps the latest attempts of every shard, so that an operator can see why a
copy is stuck.  An attempt that repeats the latest one for the same role is not recorded.
-/
import ShardAllocation.Decider.Decision
import ShardAllocation.SortedMap

namespace ShardAllocation

/-- One failed attempt to place a copy. -/
structure Attempt where
  primary : Bool
  /-- Throttled when the placement was put off, no when every node refused. -/
  outcome : Decision
  nodes : List NodeDecision
  deriving DecidableEq, Repr

/-- The failed attempts of every shard, the oldest first. -/
structure History where
  shards : SortedMap ShardId (List Attempt) := SortedMap.empty
  deriving DecidableEq

namespace History

/-- The number of attempts that are kept for a shard. -/
def mostAttempts : Nat := 16

instance : Inhabited History := ⟨{}⟩

/-- The attempts that are kept for a shard. -/
def attempts (h : History) (s : ShardId) : List Attempt := (h.shards.get? s).getD []

/-- The latest attempt for a role. -/
def latest? (attempts : List Attempt) (primary : Bool) : Option Attempt :=
  attempts.reverse.find? fun a => a.primary == primary

/-- Drops the oldest attempt of a list that is too long. -/
def trim (attempts : List Attempt) : List Attempt :=
  if mostAttempts < attempts.length then attempts.tail else attempts

/-- Whether the attempt differs from the latest one for its role. -/
def isNews (h : History) (s : ShardId) (a : Attempt) : Bool :=
  latest? (h.attempts s) a.primary != some a

/-- Records an attempt unless it repeats the latest one for its role. -/
def record (h : History) (s : ShardId) (a : Attempt) : History :=
  if h.isNews s a then ⟨h.shards.insert s (trim (h.attempts s ++ [a]))⟩ else h

/-- Forgets the attempts of an index. -/
def withoutIndex (h : History) (index : String) : History :=
  ⟨h.shards.filter fun s _ => s.index != index⟩

end History

end ShardAllocation
