/-
The working view of a pass: every copy by node and by shard.

The view keeps two indexes of the same copies: what each node holds (`nodes`) and which
nodes hold a copy of a shard (`holders`).  The target of a move in flight is a copy of
its own here.  Nodes that hold copies without being members stay in the view until they
are reconciled.

This module holds the view and its queries; `Routing.Mutation` changes it and
`Routing.Freeze` turns it back into a routing table.
-/
import ShardAllocation.Routing.Table
import ShardAllocation.Routing.Transition

namespace ShardAllocation

/-- A node with the copies on it. -/
structure DataNode where
  id : NodeId
  held : SortedMap ShardId Copy

namespace DataNode

/-- The copies on the node in the order of their shards. -/
def copies (n : DataNode) : List Copy := n.held.values

/-- The number of copies in a state. -/
def countInState (n : DataNode) (state : CopyState) : Nat :=
  n.copies.countP (fun c => c.state == state)

/-- The copies that stay once every move in flight is complete. -/
def weight (n : DataNode) : Nat := n.copies.countP (!·.isRelocating)

end DataNode

/-- The working view of a pass. -/
structure View where
  nodes : SortedMap NodeId (SortedMap ShardId Copy)
  holders : SortedMap ShardId (SortedSet NodeId)
  /-- The members. -/
  live : SortedSet NodeId
  /-- The nodes that were removed earlier in the pass. -/
  departed : SortedSet NodeId
  unassigned : List Copy
  /-- What the pass did so far, in order. -/
  transitions : List Transition
  deriving DecidableEq

namespace View

/-- The view of a cluster with the given members and no copies. -/
def ofMembers (members : List NodeId) : View :=
  { nodes := SortedMap.ofList (members.map fun n => (n, SortedMap.empty))
    holders := SortedMap.empty
    live := SortedSet.ofList members
    departed := SortedMap.empty
    unassigned := []
    transitions := [] }

/-- The node with its copies, if the view has it. -/
def node? (v : View) (n : NodeId) : Option DataNode := (v.nodes.get? n).map (DataNode.mk n)

/-- The nodes of the view in the order of their names. -/
def allNodes (v : View) : List DataNode := v.nodes.entries.map fun e => ⟨e.1, e.2⟩

/-- Whether the node is a member. -/
def isLive (v : View) (n : NodeId) : Bool := v.live.contains n

/-- The members in the order of their names. -/
def liveNodes (v : View) : List DataNode := v.allNodes.filter fun n => v.isLive n.id

/-- The nodes of the view that are not members. -/
def departedNodes (v : View) : List NodeId := v.nodes.keys.filter fun n => !v.isLive n

/-- Whether the node was removed earlier in the pass. -/
def hasDeparted (v : View) (n : NodeId) : Bool := v.departed.contains n

/-- The copy of a shard on a node. -/
def copyOn? (v : View) (s : ShardId) (n : NodeId) : Option Copy :=
  (v.nodes.get? n).bind (·.get? s)

/-- The assigned copies of a shard, targets of moves included, in the order of their
nodes. -/
def copies (v : View) (s : ShardId) : List Copy :=
  match v.holders.get? s with
  | some nodes => nodes.keys.filterMap (v.copyOn? s)
  | none => []

/-- The assigned primary, which is never the target of a move. -/
def primary? (v : View) (s : ShardId) : Option Copy :=
  (v.copies s).find? fun c => c.primary && !c.isRelocationTarget

/-- The assigned primary if it holds a full set of data. -/
def activePrimary? (v : View) (s : ShardId) : Option Copy := (v.primary? s).filter (·.isActive)

/-- The unassigned copies of a shard. -/
def unassignedOf (v : View) (s : ShardId) : List Copy :=
  v.unassigned.filter fun c => c.shard == s

/-- The slots of a shard, assigned or not. -/
def slotCount (v : View) (s : ShardId) : Nat :=
  (v.copies s).countP (!·.isRelocationTarget) + (v.unassignedOf s).length

/-- The assigned copies in a state. -/
def countInState (v : View) (state : CopyState) : Nat :=
  (v.allNodes.flatMap (·.copies)).countP fun c => c.state == state

/-- The copies that initialize on a node, targets of moves included. -/
def incomingRecoveries (v : View) (n : NodeId) : Nat :=
  match v.node? n with
  | some node => node.countInState .initializing
  | none => 0

/-- A replica that is being filled from its primary. -/
def isRecoveringReplica (c : Copy) : Bool :=
  !c.primary && c.isInitializing && !c.isRelocationTarget

/-- The recoveries that read from a node: its copies that move away, and the replicas
that are filled from a primary on it. -/
def outgoingRecoveries (v : View) (n : NodeId) : Nat :=
  match v.node? n with
  | some node =>
    let sources := node.copies.filter fun c => c.primary && c.isActive
    node.countInState .relocating +
      (sources.flatMap fun p => v.copies p.shard).countP isRecoveringReplica
  | none => 0

/-- The fresh primaries that initialize on a node. -/
def initializingPrimaries (v : View) (n : NodeId) : Nat :=
  match v.node? n with
  | some node =>
    node.copies.countP fun c => c.primary && c.isInitializing && !c.isRelocationTarget
  | none => 0

end View

end ShardAllocation
