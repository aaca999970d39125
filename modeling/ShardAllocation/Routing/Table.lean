/-
The routing table: where every copy of every shard is.

The table stores one entry per copy slot.  The target of a move in flight is not stored;
it is derived from the relocating copy.
-/
import ShardAllocation.Cluster.Metadata
import ShardAllocation.Shard.Copy

namespace ShardAllocation

/-- The copies of one shard. -/
structure ShardTable where
  shard : ShardId
  copies : List Copy
  deriving DecidableEq, Repr

namespace ShardTable

/-- The first primary copy. -/
def primary? (t : ShardTable) : Option Copy := t.copies.find? (·.primary)

/-- The replicas in their order. -/
def replicas (t : ShardTable) : List Copy := t.copies.filter (!·.primary)

/-- The number of copies with a full set of data. -/
def activeCount (t : ShardTable) : Nat := t.copies.countP (·.isActive)

/-- The unassigned copies in their order. -/
def unassigned (t : ShardTable) : List Copy := t.copies.filter (·.isUnassigned)

/-- The copy on a node, which may be the derived target of a move. -/
def copyOn? (t : ShardTable) (node : NodeId) : Option Copy :=
  t.copies.findSome? fun c =>
    if c.node = some node then some c
    else if c.peer = some node then c.relocationTarget?
    else none

/-- The states of replicas from the least to the most valuable. -/
def sheddingOrder : List CopyState := [.unassigned, .initializing, .relocating, .started]

/-- Removes the last element that satisfies `p`. -/
def removeLast (p : Copy → Bool) (copies : List Copy) : List Copy :=
  (copies.reverse.eraseP p).reverse

/-- Whether the copy is a replica in the given state. -/
def isReplicaIn (state : CopyState) (c : Copy) : Bool := !c.primary && c.state == state

/-- Removes the least valuable replica, of several the last one. -/
def shedOne (copies : List Copy) : List Copy :=
  match sheddingOrder.find? (fun state => copies.any (isReplicaIn state)) with
  | some state => removeLast (isReplicaIn state) copies
  | none => copies

/-- Removes the `n` least valuable replicas. -/
def shed : Nat → List Copy → List Copy
  | 0, copies => copies
  | n + 1, copies => shed n (shedOne copies)

/-- Gives the shard `wanted` replicas: new ones are appended unassigned, surplus ones are
shed. -/
def withReplicas (t : ShardTable) (wanted : Nat) (since : Instant) : ShardTable :=
  let current := t.replicas.length
  if current < wanted then
    let fresh := Copy.newUnassigned t.shard false { reason := .replicaAdded, since }
    { t with copies := t.copies ++ List.replicate (wanted - current) fresh }
  else { t with copies := shed (current - wanted) t.copies }

end ShardTable

/-- The shards of one index, in the order of their numbers. -/
structure IndexTable where
  index : String
  shards : List ShardTable
  deriving DecidableEq, Repr

namespace IndexTable

/-- The table of a new index: every copy of every shard is unassigned. -/
def newUnassigned (m : IndexMetadata) (since : Instant) : IndexTable :=
  let info : UnassignedInfo := { reason := .indexCreated, since }
  { index := m.name
    shards := m.shardIds.map fun shard =>
      { shard
        copies := Copy.newUnassigned shard true info ::
          List.replicate m.replicas (Copy.newUnassigned shard false info) } }

/-- The stored copies of the index. -/
def copies (t : IndexTable) : List Copy := t.shards.flatMap (·.copies)

end IndexTable

/-- Where every copy of every index is. -/
abbrev RoutingTable := SortedMap String IndexTable

namespace RoutingTable

/-- The entry of a shard, found by its position in its index. -/
def shard? (t : RoutingTable) (s : ShardId) : Option ShardTable :=
  (t.get? s.index).bind fun index => index.shards[s.number]?

/-- Every stored copy. -/
def copies (t : RoutingTable) : List Copy := t.values.flatMap (·.copies)

/-- The stored copies in a state. -/
def copiesInState (t : RoutingTable) (state : CopyState) : List Copy :=
  t.copies.filter (fun c => c.state == state)

/-- Every node that holds a copy or is the other end of a move, in order. -/
def referencedNodes (t : RoutingTable) : List NodeId :=
  (SortedSet.ofList (t.copies.flatMap fun c => c.node.toList ++ c.peer.toList)).keys

/-- Adds an index with all its copies unassigned. -/
def addIndex (t : RoutingTable) (m : IndexMetadata) (since : Instant) :
    Except Fault RoutingTable :=
  if t.contains m.name then .error (.indexAlreadyExists m.name)
  else .ok (t.insert m.name (IndexTable.newUnassigned m since))

/-- Forgets an index. -/
def removeIndex (t : RoutingTable) (name : String) : Except Fault RoutingTable :=
  if t.contains name then .ok (t.erase name) else .error (.indexNotFound name)

/-- Gives every shard of an index the wanted number of replicas. -/
def setReplicas (t : RoutingTable) (name : String) (wanted : Nat) (since : Instant) :
    Except Fault RoutingTable :=
  match t.get? name with
  | none => .error (.indexNotFound name)
  | some index =>
    .ok (t.insert name { index := name, shards := index.shards.map (·.withReplicas wanted since) })

end RoutingTable

end ShardAllocation
