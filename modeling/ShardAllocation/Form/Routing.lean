/-
The plain form of copies, tables, transitions and metadata.
-/
import ShardAllocation.Form.Basic
import ShardAllocation.Routing.Table
import ShardAllocation.Routing.Transition

namespace ShardAllocation

namespace Form

/-- The plain form of a shard. -/
def ofShardId (s : ShardId) : Datum :=
  .record [("index", .text s.index), ("id", .natural s.number)]

/-- Reads a shard. -/
def toShardId (d : Datum) : Reading ShardId := do
  let number ← required d "id" (natural limit32)
  let index ← required d "index" text
  pure ⟨index, number⟩

/-- Reads a point in time. -/
def toInstant (d : Datum) : Reading Instant := do
  match Instant.ofText? (← text d) with
  | some time => pure time
  | none => misshapen

/-- Reads the reason for which a copy is unassigned. -/
def toReason : Datum → Reading UnassignedReason := oneOf UnassignedReason.all (·.text)

/-- The plain form of the reason and time since which a copy is unassigned. -/
def ofUnassignedInfo (i : UnassignedInfo) : Datum :=
  .record ([("reason", .text i.reason.text), ("at", .text i.since.toText)] ++
    Datum.optionalField "message" .text i.message ++
    [("lost_active_copy", .bool i.lostActiveCopy)])

/-- Reads the reason and time since which a copy is unassigned. -/
def toUnassignedInfo (d : Datum) : Reading UnassignedInfo := do
  let since ← required d "at" toInstant
  let lostActiveCopy ← orDefault d "lost_active_copy" false bool
  let message ← optional d "message" text
  let reason ← required d "reason" toReason
  pure { reason, since, message, lostActiveCopy }

/-- Reads the state of a copy. -/
def toCopyState : Datum → Reading CopyState := oneOf CopyState.all (·.text)

/-- The plain form of a copy. -/
def ofCopy (c : Copy) : Datum :=
  .record ([("shard_id", ofShardId c.shard), ("primary", .bool c.primary),
      ("state", .text c.state.text)] ++
    Datum.optionalField "current_node_id" .text c.node ++
    Datum.optionalField "relocating_node_id" .text c.peer ++
    Datum.optionalField "unassigned_info" ofUnassignedInfo c.info)

/-- Reads a copy.  The parts need not fit together. -/
def toCopy (d : Datum) : Reading Copy := do
  let node ← optional d "current_node_id" text
  let primary ← required d "primary" bool
  let peer ← optional d "relocating_node_id" text
  let shard ← required d "shard_id" toShardId
  let state ← required d "state" toCopyState
  let info ← optional d "unassigned_info" toUnassignedInfo
  pure { shard, primary, state, node, peer, info }

/-- The plain form of the copies of a shard. -/
def ofShardTable (t : ShardTable) : Datum :=
  .record [("shard_id", ofShardId t.shard), ("copies", .list (t.copies.map ofCopy))]

/-- Reads the copies of a shard. -/
def toShardTable (d : Datum) : Reading ShardTable := do
  let copies ← required d "copies" (listOf toCopy)
  let shard ← required d "shard_id" toShardId
  pure { shard, copies }

/-- The plain form of the table of an index. -/
def ofIndexTable (t : IndexTable) : Datum :=
  .record [("index", .text t.index), ("shards", .list (t.shards.map ofShardTable))]

/-- Reads the table of an index. -/
def toIndexTable (d : Datum) : Reading IndexTable := do
  let index ← required d "index" text
  let shards ← required d "shards" (listOf toShardTable)
  pure { index, shards }

/-- The plain form of a map with texts as keys. -/
def ofMap {α : Type} (f : α → Datum) (m : SortedMap String α) : Datum :=
  .record (m.entries.map fun e => (e.1, f e.2))

/-- The plain form of a routing table. -/
def ofTable (t : RoutingTable) : Datum := .record [("indices", ofMap ofIndexTable t)]

/-- Reads a routing table. -/
def toTable (d : Datum) : Reading RoutingTable := required d "indices" (mapOf toIndexTable)

/-- The plain form of the shape of an index. -/
def ofIndexMetadata (m : IndexMetadata) : Datum :=
  .record [("name", .text m.name), ("number_of_shards", .natural m.shards),
    ("number_of_replicas", .natural m.replicas)]

/-- Reads the shape of an index. -/
def toIndexMetadata (d : Datum) : Reading IndexMetadata := do
  let name ← required d "name" text
  let replicas ← required d "number_of_replicas" (natural limit32)
  let shards ← required d "number_of_shards" (natural limit32)
  pure { name, shards, replicas }

/-- The plain form of the declared indices. -/
def ofMetadata (m : Metadata) : Datum := .record [("indices", ofMap ofIndexMetadata m)]

/-- Reads the declared indices. -/
def toMetadata (d : Datum) : Reading Metadata := required d "indices" (mapOf toIndexMetadata)

/-- The plain form of a disk usage. -/
def ofDiskUsage (u : DiskUsage) : Datum :=
  .record [("total_bytes", .natural u.total), ("free_bytes", .natural u.free)]

/-- Reads a disk usage. -/
def toDiskUsage (d : Datum) : Reading DiskUsage := do
  let free ← required d "free_bytes" (natural limit64)
  let total ← required d "total_bytes" (natural limit64)
  pure { total, free }

/-- The plain form of a member with the usage that it reported. -/
def ofMember (n : NodeId) (disk : Option DiskUsage) : Datum :=
  .record (("id", .text n) :: Datum.optionalField "disk" ofDiskUsage disk)

/-- Reads a member. -/
def toMember (d : Datum) : Reading (NodeId × Option DiskUsage) := do
  let disk ← optional d "disk" toDiskUsage
  let id ← required d "id" text
  pure (id, disk)

/-- The plain form of the members. -/
def ofMembership (m : Membership) : Datum :=
  .record [("nodes", .record (m.entries.map fun e => (e.1, ofMember e.1 e.2)))]

/-- The plain form of a recovery. -/
def ofRecovery (r : Recovery) : Datum :=
  .record [("shard_id", ofShardId r.shard), ("source_node", Datum.ofOption .text r.source),
    ("target_node", .text r.target), ("primary", .bool r.primary)]

/-- The plain form of a step of a copy. -/
def ofTransition (t : Transition) : Datum :=
  match t with
  | .initialized shard node primary source =>
    tagged "initialized" shard [("node", .text node), ("primary", .bool primary),
      ("source", Datum.ofOption .text source)]
  | .started shard node => tagged "started" shard [("node", .text node)]
  | .relocationStarted shard source target primary =>
    tagged "relocation_started" shard [("from", .text source), ("to", .text target),
      ("primary", .bool primary)]
  | .relocationCancelled shard source target =>
    tagged "relocation_cancelled" shard [("source", .text source), ("target", .text target)]
  | .unassigned shard node reason =>
    tagged "unassigned" shard [("node", .text node), ("reason", .text reason.text)]
  | .promoted shard node => tagged "promoted" shard [("node", .text node)]
  | .dropped shard node => tagged "dropped" shard [("node", .text node)]
where
  tagged (kind : String) (shard : ShardId) (fields : List (String × Datum)) : Datum :=
    .record (("kind", .text kind) :: ("shard_id", ofShardId shard) :: fields)

/-- Reads a step of a copy. -/
def toTransition (d : Datum) : Reading Transition := do
  let kind ← required d "kind" text
  let shard ← required d "shard_id" toShardId
  match kind with
  | "initialized" =>
    let node ← required d "node" text
    let primary ← required d "primary" bool
    let source ← optional d "source" text
    pure (.initialized shard node primary source)
  | "started" => (required d "node" text).map (.started shard)
  | "promoted" => (required d "node" text).map (.promoted shard)
  | "dropped" => (required d "node" text).map (.dropped shard)
  | "relocation_started" =>
    let source ← required d "from" text
    let target ← required d "to" text
    let primary ← required d "primary" bool
    pure (.relocationStarted shard source target primary)
  | "relocation_cancelled" =>
    let source ← required d "source" text
    let target ← required d "target" text
    pure (.relocationCancelled shard source target)
  | "unassigned" =>
    let node ← required d "node" text
    let reason ← required d "reason" toReason
    pure (.unassigned shard node reason)
  | _ => misshapen

end Form

end ShardAllocation
