/-
One physical copy of a shard and its life.

A copy is unassigned, initializing, started or relocating.  While it moves, the copy on
the source node is relocating and names the target as its peer; a second copy on the
target is initializing and names the source.  A step that does not apply to the state of
a copy is refused as a broken invariant, for only a faulty caller asks for it.

* `relocationTarget?_eq_some_iff` — only a relocating copy has a target;
* `cancelRelocation_relocate` — cancelling a move gives back the started copy.
-/
import ShardAllocation.Fault
import ShardAllocation.Instant
import ShardAllocation.Shard.Id

namespace ShardAllocation

/-- Where a copy is in its life. -/
inductive CopyState where
  | unassigned
  | initializing
  | started
  | relocating
  deriving DecidableEq, Repr

namespace CopyState

/-- The written form of a state. -/
def text : CopyState → String
  | unassigned => "UNASSIGNED"
  | initializing => "INITIALIZING"
  | started => "STARTED"
  | relocating => "RELOCATING"

instance : ToString CopyState := ⟨text⟩

/-- Every state. -/
def all : List CopyState := [unassigned, initializing, started, relocating]

end CopyState

/-- Why a copy is unassigned. -/
inductive UnassignedReason where
  | indexCreated
  | replicaAdded
  | nodeLeft
  | allocationFailed
  | rerouteCancelled
  | primaryFailed
  | relocationAbandoned
  deriving DecidableEq, Repr

namespace UnassignedReason

/-- The written form of a reason. -/
def text : UnassignedReason → String
  | indexCreated => "index_created"
  | replicaAdded => "replica_added"
  | nodeLeft => "node_left"
  | allocationFailed => "allocation_failed"
  | rerouteCancelled => "reroute_cancelled"
  | primaryFailed => "primary_failed"
  | relocationAbandoned => "relocation_abandoned"

instance : ToString UnassignedReason := ⟨text⟩

/-- Every reason. -/
def all : List UnassignedReason :=
  [indexCreated, replicaAdded, nodeLeft, allocationFailed, rerouteCancelled, primaryFailed,
    relocationAbandoned]

end UnassignedReason

/-- Why and since when a copy is unassigned. -/
structure UnassignedInfo where
  reason : UnassignedReason
  since : Instant
  message : Option String := none
  /-- The copy was active when it became unassigned.  Of a primary this says that its data
  is gone, so that only an explicit command may allocate it. -/
  lostActiveCopy : Bool := false
  deriving DecidableEq, Repr

/-- One physical copy of a shard. -/
structure Copy where
  shard : ShardId
  primary : Bool
  state : CopyState
  /-- The node that holds the copy. -/
  node : Option NodeId := none
  /-- The other end of a move in flight. -/
  peer : Option NodeId := none
  info : Option UnassignedInfo := none
  deriving DecidableEq, Repr

namespace Copy

/-- A fresh unassigned copy. -/
def newUnassigned (shard : ShardId) (primary : Bool) (info : UnassignedInfo) : Copy :=
  { shard, primary, state := .unassigned, info := some info }

/-- The copy waits for a node. -/
def isUnassigned (c : Copy) : Bool := c.state == .unassigned

/-- Some node holds the copy. -/
def isAssigned (c : Copy) : Bool := c.node.isSome

/-- The copy is being filled with data. -/
def isInitializing (c : Copy) : Bool := c.state == .initializing

/-- The copy is complete and stays where it is. -/
def isStarted (c : Copy) : Bool := c.state == .started

/-- The copy is complete and moves away. -/
def isRelocating (c : Copy) : Bool := c.state == .relocating

/-- The copy holds a full set of data. -/
def isActive (c : Copy) : Bool := c.isStarted || c.isRelocating

/-- The copy is the initializing half of a move in flight. -/
def isRelocationTarget (c : Copy) : Bool := c.isInitializing && c.peer.isSome

/-- The name of the holding node, for messages. -/
def nodeText (c : Copy) : String := c.node.getD "-"

/-- The written form of a copy. -/
def text (c : Copy) : String :=
  let moving := if c.peer.isSome then "relocating " else ""
  let role := if c.primary then "P" else "R"
  let peer := match c.peer with
    | some node => s!", relocating[{node}]"
    | none => ""
  s!"{c.shard}, node[{c.nodeText}], {moving}[{role}], s[{c.state}]{peer}"

instance : ToString Copy := ⟨text⟩

/-- The initializing copy on the target of a move. -/
def relocationTarget? (c : Copy) : Option Copy :=
  if c.isRelocating then
    some { shard := c.shard, primary := c.primary, state := .initializing
           node := c.peer, peer := c.node }
  else none

/-- The refusal of a step in a state that it does not apply to. -/
def wrongState (c : Copy) (action : String) (expected : CopyState) : Fault :=
  .invariantViolation s!"cannot {action} {c.shard}: state is {c.state}, expected {expected}"

/-- Places an unassigned copy on a node, where it starts to initialize. -/
def place (c : Copy) (node : NodeId) : Except Fault Copy :=
  if c.state ≠ .unassigned then .error (c.wrongState "initialize" .unassigned)
  else .ok { shard := c.shard, primary := c.primary, state := .initializing, node := some node }

/-- Completes an initializing copy; the target of a move forgets its source. -/
def start (c : Copy) : Except Fault Copy :=
  if c.state ≠ .initializing then .error (c.wrongState "start" .initializing)
  else .ok { c with state := .started, peer := none }

/-- Sends a started copy on its way to another node. -/
def relocate (c : Copy) (target : NodeId) : Except Fault Copy :=
  if c.state ≠ .started then .error (c.wrongState "relocate" .started)
  else if c.node = some target then
    .error (.invariantViolation s!"{c.shard} cannot relocate onto its own node [{target}]")
  else .ok { c with state := .relocating, peer := some target }

/-- Calls a moving copy back; it is started on its own node again. -/
def cancelRelocation (c : Copy) : Except Fault Copy :=
  if c.state ≠ .relocating then .error (c.wrongState "cancel relocation of" .relocating)
  else .ok { c with state := .started, peer := none }

/-- Takes an assigned copy off its node.  The copy remembers whether it was active.  The
target of a move has to be cancelled instead. -/
def unassign (c : Copy) (info : UnassignedInfo) : Except Fault Copy :=
  if c.isUnassigned || c.isRelocationTarget then
    let target := if c.isRelocationTarget then "true" else "false"
    .error (.invariantViolation
      s!"cannot unassign {c.shard} in state {c.state} (relocation target: {target})")
  else .ok (newUnassigned c.shard c.primary { info with lostActiveCopy := c.isActive })

/-- Makes a replica the primary, where it is and as it is. -/
def promote (c : Copy) : Except Fault Copy :=
  if c.primary then
    .error (.invariantViolation s!"{c.shard} on [{c.nodeText}] is already primary")
  else .ok { c with primary := true }

/-- Makes the copy a replica. -/
def demote (c : Copy) : Copy := { c with primary := false }

theorem relocationTarget?_eq_some_iff {c t : Copy} :
    c.relocationTarget? = some t ↔
      c.state = .relocating ∧
        t = { shard := c.shard, primary := c.primary, state := .initializing
              node := c.peer, peer := c.node } := by
  simp only [relocationTarget?, isRelocating, beq_iff_eq]
  split <;> simp_all [eq_comm]

theorem cancelRelocation_relocate {c r : Copy} {target : NodeId} (hpeer : c.peer = none)
    (h : c.relocate target = .ok r) : r.cancelRelocation = .ok c := by
  obtain ⟨shard, primary, state, node, peer, info⟩ := c
  simp only [relocate] at h
  split at h
  · simp at h
  · split at h
    · simp at h
    · cases h
      simp_all [cancelRelocation]

end Copy

end ShardAllocation
