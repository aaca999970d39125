/-
Reading settings from their plain form.

Every option may be missing.  Options are read in the order of their names, and the
first fault decides.
-/
import ShardAllocation.Form.Basic
import ShardAllocation.Settings

namespace ShardAllocation

namespace Form

/-- Reads a watermark. -/
def toWatermark (d : Datum) : Reading Watermark := do
  match Watermark.ofText (← text d) with
  | .ok mark => pure mark
  | .error fault => .error (.refused fault)

/-- Reads a number of 32 bits; a number out of its range becomes infinite. -/
def toSingle : Datum → Reading Binary
  | .integer i => .ok (Binary.ofInt .single i)
  | .real x => .ok (x.convert .single)
  | _ => misshapen

/-- Reads the disk options. -/
def toDiskSettings (d : Datum) : Reading DiskSettings := do
  discard (record d)
  let default : DiskSettings := {}
  let enabled ← orDefault d "enabled" default.enabled bool
  let highWatermark ← orDefault d "high_watermark" default.highWatermark toWatermark
  let lowWatermark ← orDefault d "low_watermark" default.lowWatermark toWatermark
  pure { enabled, lowWatermark, highWatermark }

/-- Reads the options of the rebalancer. -/
def toRebalanceSettings (d : Datum) : Reading RebalanceSettings := do
  discard (record d)
  let default : RebalanceSettings := {}
  let allow ← orDefault d "allow" default.allow (oneOf RebalanceGate.gates (·.text))
  let enable ← orDefault d "enable" default.enable (oneOf RebalanceMode.modes (·.text))
  let threshold ← orDefault d "threshold" default.threshold toSingle
  pure { enable, allow, threshold }

/-- Reads the allocation options. -/
def toSettings (d : Datum) : Reading Settings := do
  discard (record d)
  let default : Settings := {}
  let count (name : String) (value : Nat) := orDefault d name value (natural limit64)
  let clusterConcurrentRebalance ←
    count "cluster_concurrent_rebalance" default.clusterConcurrentRebalance
  let clusterConcurrentRecoveries ←
    count "cluster_concurrent_recoveries" default.clusterConcurrentRecoveries
  let disk ← orDefault d "disk" default.disk toDiskSettings
  let nodeConcurrentRecoveries ←
    count "node_concurrent_recoveries" default.nodeConcurrentRecoveries
  let nodeInitialPrimariesRecoveries ←
    count "node_initial_primaries_recoveries" default.nodeInitialPrimariesRecoveries
  let rebalance ← orDefault d "rebalance" default.rebalance toRebalanceSettings
  pure { nodeConcurrentRecoveries, nodeInitialPrimariesRecoveries, clusterConcurrentRecoveries
         clusterConcurrentRebalance, disk, rebalance }

end Form

end ShardAllocation
