/-
From the working view back to a routing table, and the check before it.

* `freeze` — the table that the view stands for, index by index of the metadata;
* `validate` — the routing invariants: no copies on departed nodes, no copies of unknown
  shards, one primary per shard, no more slots than wanted, and moves with both ends.
-/
import ShardAllocation.Routing.Mutation

namespace ShardAllocation

namespace View

/-- Primaries before replicas, each in their order. -/
def primariesFirst (copies : List Copy) : List Copy :=
  copies.filter (·.primary) ++ copies.filter (!·.primary)

/-- The slots of a shard in table order: assigned before unassigned, primaries first. -/
def slots (v : View) (s : ShardId) : List Copy :=
  primariesFirst ((v.copies s).filter (!·.isRelocationTarget)) ++ primariesFirst (v.unassignedOf s)

/-- The table of an index.  A shard that an earlier declaration of the same name has
already taken is left empty. -/
def freezeIndex (v : View) (earlier : List IndexMetadata) (m : IndexMetadata) : IndexTable :=
  let taken (s : ShardId) : Bool :=
    earlier.any fun e => e.name == s.index && s.number < e.shards
  { index := m.name
    shards := m.shardIds.map fun shard =>
      { shard, copies := if taken shard then [] else v.slots shard } }

/-- Freezes the declarations one after the other. -/
def freezeAll (v : View) (earlier : List IndexMetadata) (table : RoutingTable) :
    List IndexMetadata → RoutingTable
  | [] => table
  | m :: rest =>
    v.freezeAll (earlier ++ [m]) (table.insert m.name (v.freezeIndex earlier m)) rest

/-- The routing table that the view stands for. -/
def freeze (v : View) (metadata : Metadata) : RoutingTable :=
  v.freezeAll [] SortedMap.empty metadata.values

/-- Whether a copy has the other end of its move, if it is part of one. -/
def isPaired (v : View) (c : Copy) : Bool :=
  let n := c.node.getD ""
  match c.state, c.peer with
  | .relocating, some target =>
    (v.copyOn? c.shard target).any fun t => t.isRelocationTarget && t.peer == some n
  | .initializing, some source =>
    (v.copyOn? c.shard source).any fun s => s.isRelocating && s.peer == some n
  | .relocating, none => false
  | _, _ => true

/-- Checks one shard, which may have `most` slots. -/
def validateShard (v : View) (most : Nat) (s : ShardId) : Except Fault Unit :=
  let slots := (v.copies s).filter (!·.isRelocationTarget) ++ v.unassignedOf s
  let primaries := slots.countP (·.primary)
  if primaries ≠ 1 then .error (.invariantViolation s!"{s} has {primaries} primaries")
  else if most < slots.length then
    .error (.invariantViolation s!"{s} has {slots.length} copies, at most {most} allowed")
  else
    match (v.copies s).find? fun c => !v.isPaired c with
    | some c => .error (.invariantViolation s!"{c} has no matching relocation peer")
    | none => .ok ()

/-- Checks every routing invariant and reports the first that is broken. -/
def validate (v : View) (metadata : Metadata) : Except Fault Unit :=
  match v.departedNodes with
  | n :: _ => .error (.invariantViolation s!"departed node [{n}] still owns copies")
  | [] =>
    match (v.holders.keys ++ v.unassigned.map (·.shard)).find? fun s => !metadata.knows s with
    | some s => .error (.invariantViolation s!"copy of unknown shard {s}")
    | none =>
      metadata.values.forM fun m => m.shardIds.forM (v.validateShard m.copiesPerShard)

end View

end ShardAllocation
