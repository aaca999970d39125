/-
The context of one pass over the cluster.

A pass works on the view of a snapshot; its phases run one after the other on the same
context, and a phase that ends with a fault leaves the context as far as it came.
-/
import ShardAllocation.Cluster.State
import ShardAllocation.Routing.Freeze
import ShardAllocation.Settings

namespace ShardAllocation

/-- The context of a pass. -/
structure Pass where
  view : View
  history : History
  /-- The snapshot that the pass started from. -/
  state : ClusterState
  settings : Settings
  /-- The time that is stamped on every change of the pass. -/
  time : Instant

/-- A part of a pass that may end with a fault. -/
abbrev Phase := EStateM Fault Pass

namespace Pass

/-- A pass over a snapshot, before its first phase. -/
def begin (state : ClusterState) (settings : Settings) (time : Instant) : Except Fault Pass := do
  let view ← View.ofTable state.members.keys state.table
  pure { view, history := state.history, state, settings, time }

/-- The disk usage that a member reported. -/
def diskUsage? (p : Pass) (n : NodeId) : Option DiskUsage := (p.state.members.get? n).join

/-- A change of the working view as part of a phase. -/
def mutate {α : Type} (m : Mutation α) : Phase α := fun p =>
  match m p.view with
  | .ok a view => .ok a { p with view }
  | .error e view => .error e { p with view }

/-- Why a copy becomes unassigned in this pass. -/
def unassignedInfo (p : Pass) (reason : UnassignedReason) (message : Option String) :
    UnassignedInfo :=
  { reason, since := p.time, message }

/-- Records a failed attempt to place a copy. -/
def recordAttempt (s : ShardId) (a : Attempt) : Phase Unit :=
  modify fun p => { p with history := p.history.record s a }

end Pass

end ShardAllocation
