/-
What a pass did to single copies, and the recoveries that follow from it.
-/
import ShardAllocation.Shard.Copy

namespace ShardAllocation

/-- A request to fill a copy with data.  The answer comes later, as a report that the
copy on the target node started or failed. -/
structure Recovery where
  shard : ShardId
  /-- The node that the data comes from; a fresh primary has none. -/
  source : Option NodeId
  target : NodeId
  primary : Bool
  deriving DecidableEq, Repr

/-- One step of one copy. -/
inductive Transition where
  /-- An unassigned copy was placed on a node; `source` is the node it recovers from. -/
  | initialized (shard : ShardId) (node : NodeId) (primary : Bool) (source : Option NodeId)
  | started (shard : ShardId) (node : NodeId)
  | relocationStarted (shard : ShardId) (source target : NodeId) (primary : Bool)
  | relocationCancelled (shard : ShardId) (source target : NodeId)
  | unassigned (shard : ShardId) (node : NodeId) (reason : UnassignedReason)
  /-- A replica became the primary where it is. -/
  | promoted (shard : ShardId) (node : NodeId)
  /-- A copy on a departed node was forgotten without leaving a slot. -/
  | dropped (shard : ShardId) (node : NodeId)
  deriving DecidableEq, Repr

namespace Transition

/-- The shard that the step is about. -/
def shard : Transition → ShardId
  | initialized s .. => s
  | started s _ => s
  | relocationStarted s .. => s
  | relocationCancelled s .. => s
  | unassigned s .. => s
  | promoted s _ => s
  | dropped s _ => s

/-- The recovery that the step asks for. -/
def recovery? : Transition → Option Recovery
  | initialized shard node primary source => some { shard, source, target := node, primary }
  | relocationStarted shard source target primary =>
    some { shard, source := some source, target, primary }
  | _ => none

/-- The written form of a step. -/
def text : Transition → String
  | initialized shard node primary source =>
    let role := if primary then "primary" else "replica"
    let store := source.getD "empty store"
    s!"{shard} {role} initializing on [{node}] from [{store}]"
  | started shard node => s!"{shard} started on [{node}]"
  | relocationStarted shard source target _ => s!"{shard} relocating [{source}] -> [{target}]"
  | relocationCancelled shard source target =>
    s!"{shard} relocation [{source}] -> [{target}] cancelled"
  | unassigned shard node reason => s!"{shard} on [{node}] unassigned ({reason})"
  | promoted shard node => s!"{shard} replica on [{node}] promoted to primary"
  | dropped shard node => s!"{shard} copy on departed [{node}] dropped"

instance : ToString Transition := ⟨text⟩

end Transition

end ShardAllocation
