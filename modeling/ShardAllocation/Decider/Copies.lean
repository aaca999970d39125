/-
Deciders that look at the other copies of the same shard.
-/
import ShardAllocation.Decider.Basic

namespace ShardAllocation

namespace Decider

/-- Never two copies of one shard on the same node. -/
def sameShard : Decider where
  name := "same_shard"
  canAllocate c n _ :=
    match n.held.get? c.shard with
    | some existing =>
      ⟨"same_shard", .no,
        s!"a copy of {c.shard} is already allocated to this node ({existing})"⟩
    | none => ⟨"same_shard", .yes, "no copy of this shard on the node"⟩

/-- Replicas are filled from the primary, so they wait until it is active. -/
def replicaAfterPrimaryActive : Decider where
  name := "replica_after_primary_active"
  canAllocate c _ p :=
    if c.primary then ⟨"replica_after_primary_active", .yes, "shard is primary"⟩
    else if (p.view.activePrimary? c.shard).isSome then
      ⟨"replica_after_primary_active", .yes, "primary shard is active"⟩
    else ⟨"replica_after_primary_active", .no, "primary shard is not active yet"⟩

end Decider

end ShardAllocation
