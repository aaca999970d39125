/-
Deciders that hold the rebalancer back.
-/
import ShardAllocation.Decider.Basic

namespace ShardAllocation

namespace Decider

/-- Lets only the copies move that the rebalance mode admits. -/
def enableRebalance : Decider where
  name := "enable_rebalance"
  canRebalanceShard c p :=
    let mode := p.settings.rebalance.enable
    if mode.admits c.primary then
      ⟨"enable_rebalance", .yes, s!"rebalancing allowed for mode [{mode}]"⟩
    else ⟨"enable_rebalance", .no, s!"rebalancing disallowed for mode [{mode}]"⟩

/-- Whether some primary is unassigned, or initializes afresh on a member. -/
def hasInactivePrimary (v : View) : Bool :=
  v.unassigned.any (·.primary) ||
    v.liveNodes.any fun n =>
      n.copies.any fun c => c.primary && c.isInitializing && !c.isRelocationTarget

/-- Whether some copy is unassigned or initializing. -/
def hasInactiveCopy (v : View) : Bool :=
  !v.unassigned.isEmpty || 0 < v.countInState .initializing

/-- Lets the rebalancer run only when the cluster is settled enough. -/
def clusterRebalanceGate : Decider where
  name := "cluster_rebalance"
  canRebalanceCluster p :=
    match p.settings.rebalance.allow with
    | .always => ⟨"cluster_rebalance", .yes, "rebalancing is always allowed"⟩
    | .primariesActive =>
      if hasInactivePrimary p.view then
        ⟨"cluster_rebalance", .no, "not all primaries are active"⟩
      else ⟨"cluster_rebalance", .yes, "all primaries are active"⟩
    | .allActive =>
      if hasInactiveCopy p.view then
        ⟨"cluster_rebalance", .no, "not all shard copies are active"⟩
      else ⟨"cluster_rebalance", .yes, "all shard copies are active"⟩

/-- Limits the moves in flight. -/
def concurrentRebalance : Decider where
  name := "concurrent_rebalance"
  canRebalanceCluster p :=
    let limit := p.settings.clusterConcurrentRebalance
    let relocating := p.view.countInState .relocating
    if limit ≤ relocating then
      ⟨"concurrent_rebalance", .throttle,
        s!"{relocating} relocations in flight, limit {limit}"⟩
    else ⟨"concurrent_rebalance", .yes, "below the concurrent rebalance limit"⟩

end Decider

end ShardAllocation
