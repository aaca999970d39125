/-
The options that govern allocation, and which of them make sense.

`validate` checks the recovery limits in the order of their fields, then the rebalance
threshold, then the watermarks, and reports the first fault.
-/
import ShardAllocation.Disk

namespace ShardAllocation

/-- Disk watermarks: above the low one a node receives copies later, above the high one
it receives none and sheds those it has. -/
structure DiskSettings where
  enabled : Bool := true
  lowWatermark : Watermark := .usedPercent (Binary.ofNat .double 85)
  highWatermark : Watermark := .usedPercent (Binary.ofNat .double 90)
  deriving DecidableEq, Repr

namespace DiskSettings

/-- Whether a percentage lies within 0 and 100; a size always does. -/
def inRange : Watermark → Bool
  | .usedPercent percent =>
    Binary.le (Binary.natural 0) percent && Binary.le percent (Binary.natural 100)
  | .freeBytes _ => true

/-- Whether the low watermark is stricter than the high one.  Watermarks of different
kinds are not compared. -/
def isInverted (d : DiskSettings) : Bool :=
  match d.lowWatermark, d.highWatermark with
  | .usedPercent low, .usedPercent high => Binary.lt high low
  | .freeBytes low, .freeBytes high => low < high
  | _, _ => false

/-- Checks the watermarks. -/
def validate (d : DiskSettings) : Except Fault Unit :=
  match [d.lowWatermark, d.highWatermark].find? (fun w => !inRange w) with
  | some w => .error (.invalidConfig s!"watermark {w} is outside 0%..100%")
  | none =>
    if d.isInverted then
      .error (.invalidConfig
        s!"low watermark {d.lowWatermark} must not be stricter than high watermark {d.highWatermark}")
    else .ok ()

end DiskSettings

/-- Which copies the rebalancer may move. -/
inductive RebalanceMode where
  | all
  | none
  | primaries
  | replicas
  deriving DecidableEq, Repr

namespace RebalanceMode

/-- The written form of a mode. -/
def text : RebalanceMode → String
  | all => "all"
  | none => "none"
  | primaries => "primaries"
  | replicas => "replicas"

instance : ToString RebalanceMode := ⟨text⟩

/-- Every mode. -/
def modes : List RebalanceMode := [all, none, primaries, replicas]

/-- Whether the mode lets a copy of that role move. -/
def admits (mode : RebalanceMode) (primary : Bool) : Bool :=
  match mode with
  | all => true
  | none => false
  | primaries => primary
  | replicas => !primary

end RebalanceMode

/-- How settled the cluster has to be before the rebalancer may run. -/
inductive RebalanceGate where
  | always
  | primariesActive
  | allActive
  deriving DecidableEq, Repr

namespace RebalanceGate

/-- The written form of a gate. -/
def text : RebalanceGate → String
  | always => "always"
  | primariesActive => "indices_primaries_active"
  | allActive => "indices_all_active"

/-- Every gate. -/
def gates : List RebalanceGate := [always, primariesActive, allActive]

end RebalanceGate

/-- Options of the rebalancer. -/
structure RebalanceSettings where
  enable : RebalanceMode := .all
  allow : RebalanceGate := .allActive
  /-- The spread in copies between two nodes that is left alone; a number of 32 bits. -/
  threshold : Binary := Binary.ofNat .single 1
  deriving DecidableEq, Repr

/-- The options of the deciders and of the placement of copies. -/
structure Settings where
  /-- Copies that may initialize on, or leave, one node at a time. -/
  nodeConcurrentRecoveries : Nat := 2
  /-- Fresh primaries that may initialize on one node at a time. -/
  nodeInitialPrimariesRecoveries : Nat := 4
  /-- Copies that may initialize in the whole cluster at a time. -/
  clusterConcurrentRecoveries : Nat := 16
  /-- Moves in flight at which the rebalancer starts no more. -/
  clusterConcurrentRebalance : Nat := 2
  disk : DiskSettings := {}
  rebalance : RebalanceSettings := {}
  deriving DecidableEq, Repr

namespace Settings

/-- The limits with the names of their options, in the order in which they are checked. -/
def limits (s : Settings) : List (String × Nat) :=
  [("node_concurrent_recoveries", s.nodeConcurrentRecoveries),
    ("node_initial_primaries_recoveries", s.nodeInitialPrimariesRecoveries),
    ("cluster_concurrent_recoveries", s.clusterConcurrentRecoveries),
    ("cluster_concurrent_rebalance", s.clusterConcurrentRebalance)]

/-- Checks the options and reports the first fault. -/
def validate (s : Settings) : Except Fault Unit :=
  match s.limits.find? (fun l => l.2 == 0) with
  | some (name, _) => .error (.invalidConfig s!"{name} must be at least 1")
  | none =>
    let threshold := s.rebalance.threshold
    if !(threshold.isFinite && Binary.le (Binary.natural 0) threshold) then
      .error (.invalidConfig
        s!"rebalance.threshold must be a non-negative number, got {threshold.shortest .single}")
    else s.disk.validate

end Settings

end ShardAllocation
