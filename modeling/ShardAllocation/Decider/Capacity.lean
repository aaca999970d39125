/-
Deciders that look at what nodes and the cluster can take: disk space and recoveries.
-/
import ShardAllocation.Decider.Basic

namespace ShardAllocation

namespace Decider

/-- The usage that the disk watermarks apply to, or why there is none. -/
def watchedUsage (n : DataNode) (p : Pass) : Except Verdict DiskUsage :=
  if !p.settings.disk.enabled then
    .error ⟨"disk_threshold", .yes, "disk threshold decider is disabled"⟩
  else
    match p.diskUsage? n.id with
    | some usage => .ok usage
    | none => .error ⟨"disk_threshold", .yes, "node did not report disk usage"⟩

/-- Keeps copies off nodes whose disk fills up.  Above the low watermark new copies wait;
above the high watermark they are refused and the copies there should leave.  A node that
reported no usage is not constrained. -/
def diskThreshold : Decider where
  name := "disk_threshold"
  canAllocate _ n p :=
    match watchedUsage n p with
    | .error verdict => verdict
    | .ok usage =>
      let disk := p.settings.disk
      if disk.highWatermark.isExceededBy usage then
        ⟨"disk_threshold", .no,
          s!"node is above the high watermark [{disk.highWatermark}]: {usage}"⟩
      else if disk.lowWatermark.isExceededBy usage then
        ⟨"disk_threshold", .throttle,
          s!"node is above the low watermark [{disk.lowWatermark}]: {usage}"⟩
      else ⟨"disk_threshold", .yes, s!"enough disk space: {usage}"⟩
  canRemain _ n p :=
    match watchedUsage n p with
    | .error verdict => verdict
    | .ok usage =>
      let high := p.settings.disk.highWatermark
      if high.isExceededBy usage then
        ⟨"disk_threshold", .no, s!"node is above the high watermark [{high}]: {usage}"⟩
      else ⟨"disk_threshold", .yes, "node is below the high watermark"⟩

/-- The node that a copy would be filled from: the active primary's node for an
unassigned copy, its own node for a copy that moves. -/
def sourceNode? (c : Copy) (p : Pass) : Option NodeId :=
  if c.isUnassigned then (p.view.activePrimary? c.shard).bind (·.node) else c.node

/-- Limits the recoveries of a node.  A fresh primary counts against the limit of initial
primaries; every other copy counts against the limit of concurrent recoveries, on the
node that receives it and on the node that it is filled from. -/
def throttling : Decider where
  name := "throttling"
  canAllocate c n p :=
    if c.primary && c.isUnassigned then
      let initializing := p.view.initializingPrimaries n.id
      let limit := p.settings.nodeInitialPrimariesRecoveries
      if limit ≤ initializing then
        ⟨"throttling", .throttle,
          s!"{initializing} primaries already initializing on this node, limit {limit}"⟩
      else ⟨"throttling", .yes, "below the primaries recovery limit"⟩
    else
      let limit := p.settings.nodeConcurrentRecoveries
      let incoming := p.view.incomingRecoveries n.id
      if limit ≤ incoming then
        ⟨"throttling", .throttle,
          s!"{incoming} incoming recoveries on this node, limit {limit}"⟩
      else
        match sourceNode? c p with
        | some source =>
          let outgoing := p.view.outgoingRecoveries source
          if limit ≤ outgoing then
            ⟨"throttling", .throttle,
              s!"{outgoing} outgoing recoveries on source node [{source}], limit {limit}"⟩
          else ⟨"throttling", .yes, "below the node recovery limits"⟩
        | none => ⟨"throttling", .yes, "below the node recovery limits"⟩

/-- Limits the copies that initialize in the whole cluster. -/
def concurrentRecoveries : Decider where
  name := "concurrent_recoveries"
  canAllocate _ _ p :=
    let limit := p.settings.clusterConcurrentRecoveries
    let initializing := p.view.countInState .initializing
    if limit ≤ initializing then
      ⟨"concurrent_recoveries", .throttle,
        s!"{initializing} copies initializing in the cluster, limit {limit}"⟩
    else ⟨"concurrent_recoveries", .yes, "below the cluster recovery limit"⟩

end Decider

end ShardAllocation
