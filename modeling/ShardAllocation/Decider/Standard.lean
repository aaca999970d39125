/-
The standard deciders in their order.
-/
import ShardAllocation.Decider.Balance
import ShardAllocation.Decider.Capacity
import ShardAllocation.Decider.Copies

namespace ShardAllocation

namespace Decider

/-- The standard deciders. -/
def standard : List Decider :=
  [sameShard, replicaAfterPrimaryActive, diskThreshold, throttling, concurrentRecoveries,
    enableRebalance, clusterRebalanceGate, concurrentRebalance]

/-- The standard decider of a name. -/
def ofName? (name : String) : Option Decider := standard.find? fun d => d.name == name

end Decider

end ShardAllocation
