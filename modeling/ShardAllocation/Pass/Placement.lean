/-
Where copies go: allocation, replenishment and moves off nodes.

Candidate nodes are tried in one order: fewest copies first, copies that move away not
counted, then by name.  The first node that every decider accepts is taken.

* `allocateUnassigned` — places unassigned copies, primaries first;
* `replenishReplicas` — rebuilds replica slots that a promotion used up;
* `moveShards` — moves started copies off nodes where they may not remain.
-/
import ShardAllocation.Decider.Basic
import ShardAllocation.Sorting

namespace ShardAllocation

/-- The outcome of looking for a node. -/
inductive Placement where
  | node (n : NodeId)
  /-- No node accepts the copy now, but some would later. -/
  | deferred (decisions : List NodeDecision)
  | refused (decisions : List NodeDecision)
  deriving DecidableEq, Repr

namespace Pass

/-- The order by load, then by name. -/
def lighter (a b : Nat × DataNode) : Bool :=
  a.1 < b.1 || (a.1 == b.1 && (compare a.2.id b.2.id).isLE)

/-- The members with their loads, the lightest first. -/
def byWeight (v : View) : List (Nat × DataNode) :=
  sortBy lighter (v.liveNodes.map fun n => (n.weight, n))

/-- The members in the order in which they are tried. -/
def candidates (v : View) : List DataNode := (byWeight v).map (·.2)

/-- Tries nodes in order; `seen` holds the decisions about the nodes before. -/
def tryNodes (ds : List Decider) (c : Copy) (p : Pass) (seen : List NodeDecision) :
    List DataNode → Placement
  | [] => if seen.any (fun d => d.decision == .throttle) then .deferred seen else .refused seen
  | n :: rest =>
    let d := Decider.allocation ds c n p false
    if d.decision = .yes then .node n.id else tryNodes ds c p (seen ++ [d]) rest

/-- Looks for a node for a copy, leaving out one node if asked to. -/
def findNode (ds : List Decider) (c : Copy) (excluded : Option NodeId) (p : Pass) : Placement :=
  tryNodes ds c p [] ((candidates p.view).filter fun n => excluded != some n.id)

/-- Primaries before replicas, then by shard. -/
def allocationOrder (a b : Copy) : Bool :=
  if a.primary == b.primary then (compare a.shard b.shard).isLE else a.primary

/-- A primary whose data is lost waits for an explicit command. -/
def isLostPrimary (c : Copy) : Bool := c.primary && c.info.any (·.lostActiveCopy)

/-- Tries to place one unassigned copy, and records the attempt if it fails. -/
def allocateCopy (ds : List Decider) (c : Copy) : Phase Unit := do
  if !isLostPrimary c then
    match findNode ds c none (← get) with
    | .node n => mutate (View.place c n)
    | .deferred nodes => recordAttempt c.shard ⟨c.primary, .throttle, nodes⟩
    | .refused nodes => recordAttempt c.shard ⟨c.primary, .no, nodes⟩

/-- Tries to place every unassigned copy. -/
def allocateUnassigned (ds : List Decider) : Phase Unit := do
  (sortBy allocationOrder (← get).view.unassigned).forM (allocateCopy ds)

/-- Rebuilds up to so many missing replicas of a shard, while a node accepts one. -/
def replenishShard (ds : List Decider) (s : ShardId) : Nat → Phase Unit
  | 0 => pure ()
  | missing + 1 => do
    let p ← get
    let replica := Copy.newUnassigned s false (p.unassignedInfo .replicaAdded none)
    match findNode ds replica none p with
    | .node n =>
      mutate (View.addUnassigned replica)
      mutate (View.place replica n)
      replenishShard ds s missing
    | _ => pure ()

/-- Rebuilds missing replicas of every shard.  A replica is only created when a node
accepts it right away. -/
def replenishReplicas (ds : List Decider) : Phase Unit := do
  (← get).state.metadata.values.forM fun m =>
    m.shardIds.forM fun s => do
      replenishShard ds s (m.copiesPerShard - (← get).view.slotCount s)

/-- Moves a started copy off its node if it may not remain there and some node accepts
it. -/
def moveCopy (ds : List Decider) (n : NodeId) (c : Copy) : Phase Unit := do
  let p ← get
  match p.view.node? n with
  | none => pure ()
  | some node =>
    if (Decider.remaining ds c node p false).decision = .no then
      match findNode ds c (some n) p with
      | .node target => mutate (View.relocate c.shard n target)
      | _ => pure ()

/-- Moves started copies off nodes where they may not remain. -/
def moveShards (ds : List Decider) : Phase Unit := do
  ((← get).view.liveNodes.map (·.id)).forM fun n => do
    let started : List Copy := match (← get).view.node? n with
      | some node => node.copies.filter (·.isStarted)
      | none => []
    started.forM (moveCopy ds n)

end Pass

end ShardAllocation
