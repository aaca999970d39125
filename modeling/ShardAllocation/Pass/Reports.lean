/-
Reports from the data nodes: recoveries that completed and copies that failed.

Stale reports change nothing.  The target of a move that fails is called back; any other
copy that fails becomes unassigned.  A primary that fails first takes down the replicas
that are filled from it, and then hands over to an active replica if there is one.
-/
import ShardAllocation.Pass.Basic

namespace ShardAllocation

/-- A recovery that completed on a node. -/
structure StartedReport where
  shard : ShardId
  node : NodeId
  deriving DecidableEq, Repr

/-- A copy that failed on a node. -/
structure FailedReport where
  shard : ShardId
  node : NodeId
  reason : String
  deriving DecidableEq, Repr

namespace Pass

/-- Completes the copy that a report names, if it initializes. -/
def applyStarted (r : StartedReport) : Phase Unit := do
  let p ← get
  if (p.view.copyOn? r.shard r.node).any (·.isInitializing) then
    mutate (View.start r.shard r.node)

/-- Takes down every replica that is filled from the primary of a shard, because the
primary is gone. -/
def failRecoveringReplicas (s : ShardId) (message : String) : Phase Unit := do
  let p ← get
  let nodes := ((p.view.copies s).filter View.isRecoveringReplica).filterMap (·.node)
  nodes.forM fun n => mutate (View.unassign s n (p.unassignedInfo .primaryFailed (some message)))

/-- Takes a failed copy off its node. -/
def applyFailed (r : FailedReport) : Phase Unit := do
  let p ← get
  match p.view.copyOn? r.shard r.node with
  | none => pure ()
  | some c =>
    if c.isRelocationTarget then
      mutate (View.cancelRelocation r.shard (c.peer.getD ""))
    else
      if c.primary then
        failRecoveringReplicas r.shard s!"primary failed: {r.reason}"
      mutate (View.unassign r.shard r.node (p.unassignedInfo .allocationFailed (some r.reason)))
      if c.primary then
        discard (mutate (View.promoteReplica r.shard))

end Pass

end ShardAllocation
