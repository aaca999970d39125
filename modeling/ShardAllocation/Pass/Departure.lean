/-
Reconciliation of the copies on nodes that left the cluster.

Copies are only forgotten and moves called back here; where replacements go is decided
later in the pass.  A lost replica leaves an unassigned slot.  A lost primary hands over
to an active replica on a member and leaves no slot, or else becomes an unassigned
primary.
-/
import ShardAllocation.Pass.Reports

namespace ShardAllocation

namespace Pass

/-- Whether a shard has an active replica on a member. -/
def hasLiveReplica (v : View) (s : ShardId) : Bool :=
  (v.copies s).any fun c => !c.primary && c.isActive && c.node.any v.isLive

/-- Forgets a copy on a departed node. -/
def loseCopy (c : Copy) (n : NodeId) (reason : UnassignedReason) (message : String) :
    Phase Unit := do
  let p ← get
  let info := p.unassignedInfo reason (some message)
  if !c.primary then
    mutate (View.unassign c.shard n info)
  else
    failRecoveringReplicas c.shard "primary left the cluster"
    let v := (← get).view
    if hasLiveReplica v c.shard then
      mutate (View.drop c.shard n)
      discard (mutate (View.promoteReplica c.shard))
    else
      mutate (View.unassign c.shard n info)

/-- What is said about a copy whose node left while the copy moved. -/
def abandonedText (source target : NodeId) : String :=
  s!"node [{source}] left while relocating to [{target}]"

/-- Reconciles the target of a move on a departed node.  A source on a member keeps its
copy; if the source departed too, its copy is lost along with the move. -/
def reconcileTarget (c : Copy) (n : NodeId) : Phase Unit := do
  let source := c.peer.getD ""
  let p ← get
  if p.view.isLive source then
    mutate (View.cancelRelocation c.shard source)
  else
    match p.view.copyOn? c.shard source with
    | some lost => loseCopy lost source .relocationAbandoned (abandonedText source n)
    | none =>
      throw (.invariantViolation s!"relocation target {c} has no source on [{source}]")

/-- Reconciles one copy on a departed node. -/
def reconcileCopy (c : Copy) (n : NodeId) : Phase Unit :=
  if c.isRelocationTarget then reconcileTarget c n
  else if c.isRelocating then
    loseCopy c n .relocationAbandoned (abandonedText n (c.peer.getD ""))
  else loseCopy c n .nodeLeft s!"node [{n}] left the cluster"

/-- Reconciles the copies on a departed node and forgets the node.  A copy may be gone
already, taken along with an earlier one. -/
def reconcileNode (n : NodeId) : Phase Unit := do
  let shards : List ShardId := match (← get).view.node? n with
    | some node => node.held.keys
    | none => []
  shards.forM fun s => do
    match (← get).view.copyOn? s n with
    | some c => reconcileCopy c n
    | none => pure ()
  mutate (View.removeNode n)

/-- Reconciles every departed node, in the order of their names. -/
def reconcile : Phase Unit := do
  (← get).view.departedNodes.forM reconcileNode

end Pass

end ShardAllocation
