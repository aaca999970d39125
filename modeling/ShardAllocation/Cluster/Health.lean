/-
The health of a cluster: counts of its copies and a colour.

A shard is red without an active primary, yellow while some wanted copy is not active,
and green otherwise; the cluster has the worst colour of its shards.
-/
import ShardAllocation.Cluster.State

namespace ShardAllocation

/-- The colour of a cluster, from the best to the worst. -/
inductive HealthStatus where
  | green
  | yellow
  | red
  deriving DecidableEq, Repr

namespace HealthStatus

/-- The written form of a colour. -/
def text : HealthStatus → String
  | green => "green"
  | yellow => "yellow"
  | red => "red"

instance : ToString HealthStatus := ⟨text⟩

/-- How bad a colour is. -/
def rank : HealthStatus → Nat
  | green => 0
  | yellow => 1
  | red => 2

/-- The worse of two colours. -/
def worse (a b : HealthStatus) : HealthStatus := if a.rank ≤ b.rank then b else a

end HealthStatus

/-- Counts of the copies of a cluster. -/
structure ClusterHealth where
  status : HealthStatus
  version : Nat
  nodes : Nat
  activePrimaries : Nat
  active : Nat
  /-- Initializing copies, with the derived targets of moves. -/
  initializing : Nat
  relocating : Nat
  unassigned : Nat
  /-- Wanted copies that the table holds no slot for. -/
  missing : Nat
  deriving DecidableEq, Repr

namespace ClusterHealth

/-- Whether the primary of a shard is active. -/
def hasActivePrimary (t : ShardTable) : Bool := t.primary?.any (·.isActive)

/-- The colour of a shard that wants a number of copies. -/
def shardStatus (wanted : Nat) (t : ShardTable) : HealthStatus :=
  if !hasActivePrimary t then .red
  else if t.activeCount < wanted then .yellow
  else .green

/-- Adds the counts of one shard. -/
def addShard (wanted : Nat) (h : ClusterHealth) (t : ShardTable) : ClusterHealth :=
  let moving := t.copies.countP (·.isRelocating)
  { h with
    status := h.status.worse (shardStatus wanted t)
    activePrimaries := h.activePrimaries + (hasActivePrimary t).toNat
    active := h.active + t.activeCount
    initializing := h.initializing + moving + t.copies.countP (·.isInitializing)
    relocating := h.relocating + moving
    unassigned := h.unassigned + t.copies.countP (·.isUnassigned)
    missing := h.missing + (wanted - t.copies.length) }

/-- The health of a snapshot.  Declared indices without a table are left out. -/
def ofState (s : ClusterState) : ClusterHealth :=
  let start : ClusterHealth :=
    { status := .green, version := s.version, nodes := s.members.size
      activePrimaries := 0, active := 0, initializing := 0, relocating := 0
      unassigned := 0, missing := 0 }
  s.metadata.values.foldl (fun h m =>
    match s.table.get? m.name with
    | some index => index.shards.foldl (addShard m.copiesPerShard) h
    | none => h) start

/-- The written form of the health. -/
def text (h : ClusterHealth) : String :=
  s!"status={h.status} version={h.version} nodes={h.nodes} " ++
    s!"active_primaries={h.activePrimaries} active={h.active} " ++
    s!"initializing={h.initializing} relocating={h.relocating} " ++
    s!"unassigned={h.unassigned} missing={h.missing}"

end ClusterHealth

end ShardAllocation
