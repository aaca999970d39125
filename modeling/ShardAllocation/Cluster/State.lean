/-
Snapshots of the cluster and the changes that are declared from outside.

A snapshot holds the members, the declared indices, the routing table and the history of
failed placements.  Every change gives a new snapshot with the next version.
-/
import ShardAllocation.History
import ShardAllocation.Routing.Table

namespace ShardAllocation

/-- A snapshot of the cluster. -/
structure ClusterState where
  version : Nat := 0
  members : Membership := SortedMap.empty
  metadata : Metadata := SortedMap.empty
  table : RoutingTable := SortedMap.empty
  history : History := {}
  deriving DecidableEq

namespace ClusterState

/-- The cluster without members and indices. -/
def initial : ClusterState := {}

/-- Replaces the members.  Copies on nodes that left are reconciled by the next pass. -/
def withMembers (s : ClusterState) (members : Membership) : ClusterState :=
  { s with version := s.version + 1, members }

/-- Declares an index, all of whose copies are unassigned. -/
def withIndex (s : ClusterState) (m : IndexMetadata) (since : Instant) :
    Except Fault ClusterState :=
  if m.shards = 0 then
    .error (.invalidConfig s!"index [{m.name}] needs at least one shard")
  else do
    let table ← s.table.addIndex m since
    pure { s with
      version := s.version + 1
      metadata := s.metadata.insert m.name m
      table }

/-- Changes the number of replicas of an index. -/
def withReplicas (s : ClusterState) (index : String) (replicas : Nat) (since : Instant) :
    Except Fault ClusterState := do
  let table ← s.table.setReplicas index replicas since
  if s.metadata.contains index then
    pure { s with
      version := s.version + 1
      metadata := s.metadata.modify index fun m => { m with replicas }
      table }
  else .error (.indexNotFound index)

/-- Removes an index with its copies and its history. -/
def withoutIndex (s : ClusterState) (index : String) : Except Fault ClusterState := do
  let table ← s.table.removeIndex index
  pure { s with
    version := s.version + 1
    metadata := s.metadata.erase index
    table
    history := s.history.withoutIndex index }

/-- The snapshot after a pass. -/
def next (s : ClusterState) (table : RoutingTable) (history : History) : ClusterState :=
  { s with version := s.version + 1, table, history }

end ClusterState

end ShardAllocation
