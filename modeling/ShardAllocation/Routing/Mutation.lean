/-
The changes that a pass makes to its working view.

Every change keeps the two indexes of the view in step and notes what it did.  A change
that does not fit the view ends with a fault; the view is then what the change had made
of it so far.

* `place`, `start` — a slot is filled and completed;
* `relocate`, `cancelRelocation` — a move begins and is called back;
* `unassign`, `drop` — a copy is taken off its node, with or without leaving a slot;
* `promoteReplica` — a replica takes over from a lost primary.
-/
import ShardAllocation.Routing.View

namespace ShardAllocation

/-- A change of the working view that may end with a fault. -/
abbrev Mutation := EStateM Fault View

namespace View

/-- A step of a single copy as part of a change. -/
def attempt {α : Type} (r : Except Fault α) : Mutation α := fun v =>
  match r with
  | .ok a => .ok a v
  | .error e => .error e v

/-- The fault of a broken invariant. -/
def broken {α : Type} (detail : String) : Mutation α := throw (.invariantViolation detail)

/-- Notes a step. -/
def note (t : Transition) : Mutation Unit :=
  modify fun v => { v with transitions := v.transitions ++ [t] }

/-- The copy of a shard on a node, which has to be there. -/
def expectCopy (s : ShardId) (n : NodeId) : Mutation Copy := do
  match (← get).copyOn? s n with
  | some c => pure c
  | none => broken s!"{s} has no copy on node [{n}]"

/-- Enters an assigned copy into both indexes; its node must not hold the shard yet. -/
def addCopy (c : Copy) : Mutation Unit := do
  let v ← get
  match c.node with
  | none => broken s!"{c} is not assigned"
  | some n =>
    let held := (v.nodes.get? n).getD SortedMap.empty
    match held.get? c.shard with
    | some existing =>
      broken s!"node [{n}] would hold two copies of {c.shard}: {existing} and {c}"
    | none =>
      let nodes := (v.holders.get? c.shard).getD SortedMap.empty
      set { v with
        nodes := v.nodes.insert n (held.insert c.shard c)
        holders := v.holders.insert c.shard (SortedSet.add nodes n) }

/-- Overwrites the copy of the same shard on the same node. -/
def replaceCopy (c : Copy) : Mutation Unit := do
  let v ← get
  let n := c.node.getD ""
  match v.nodes.get? n with
  | some held =>
    if held.contains c.shard then
      set { v with nodes := v.nodes.insert n (held.insert c.shard c) }
    else broken s!"{c} replaces a missing copy"
  | none => broken s!"{c} replaces a missing copy"

/-- Takes the copy of a shard on a node out of both indexes. -/
def removeCopy (s : ShardId) (n : NodeId) : Mutation Unit := do
  let v ← get
  match v.nodes.get? n with
  | some held =>
    if held.contains s then
      let nodes := ((v.holders.get? s).getD SortedMap.empty).erase n
      set { v with
        nodes := v.nodes.insert n (held.erase s)
        holders := if nodes.isEmpty then v.holders.erase s else v.holders.insert s nodes }
    else broken s!"{s} has no copy on node [{n}] to remove"
  | none => broken s!"{s} has no copy on node [{n}] to remove"

/-- Places an unassigned copy on a node. -/
def place (c : Copy) (n : NodeId) : Mutation Unit := do
  if c ∉ (← get).unassigned then
    broken s!"{c} is not in the unassigned list"
  addCopy (← attempt (c.place n))
  modify fun v => { v with unassigned := v.unassigned.erase c }
  let v ← get
  let source := if c.primary then none else (v.activePrimary? c.shard).bind (·.node)
  note (.initialized c.shard n c.primary source)

/-- Completes an initializing copy.  Completing a move removes its source. -/
def start (s : ShardId) (n : NodeId) : Mutation Unit := do
  let c ← expectCopy s n
  let started ← attempt c.start
  if c.isRelocationTarget then
    let sourceNode := c.peer.getD ""
    let source ← expectCopy s sourceNode
    if !source.isRelocating || source.peer ≠ some n then
      broken s!"relocation target {c} does not match source {source}"
    removeCopy s sourceNode
  replaceCopy started
  note (.started s n)

/-- Sends the started copy on `source` on its way to `target`. -/
def relocate (s : ShardId) (source target : NodeId) : Mutation Unit := do
  let c ← expectCopy s source
  let relocating ← attempt (c.relocate target)
  match relocating.relocationTarget? with
  | none => broken s!"{relocating} has no relocation target"
  | some arriving =>
    addCopy arriving
    replaceCopy relocating
    note (.relocationStarted s source target relocating.primary)

/-- Calls the move from `source` back: its target is removed. -/
def cancelRelocation (s : ShardId) (source : NodeId) : Mutation Unit := do
  let c ← expectCopy s source
  let reverted ← attempt c.cancelRelocation
  let target := c.peer.getD ""
  removeCopy s target
  replaceCopy reverted
  note (.relocationCancelled s source target)

/-- Removes the target of a copy that moves. -/
def removeTarget (c : Copy) : Mutation Unit :=
  match c.peer with
  | some target => if c.isRelocating then removeCopy c.shard target else pure ()
  | none => pure ()

/-- Takes an assigned copy off its node and leaves an unassigned slot. -/
def unassign (s : ShardId) (n : NodeId) (info : UnassignedInfo) : Mutation Unit := do
  let c ← expectCopy s n
  let slot ← attempt (c.unassign info)
  removeTarget c
  removeCopy s n
  modify fun v => { v with unassigned := v.unassigned ++ [slot] }
  note (.unassigned s n info.reason)

/-- Forgets an assigned copy without leaving a slot. -/
def drop (s : ShardId) (n : NodeId) : Mutation Unit := do
  let c ← expectCopy s n
  if c.isRelocationTarget then
    broken s!"relocation target {c} must be cancelled, not dropped"
  removeTarget c
  removeCopy s n
  note (.dropped s n)

/-- The replicas of a shard that can take over: active, on a member, in the order of
their nodes. -/
def promotable (v : View) (s : ShardId) : List Copy :=
  (v.copies s).filter fun c =>
    !c.primary && c.isActive && !c.isRelocationTarget && c.node.any v.isLive

/-- The replica that takes over: the first started one, else the first that moves. -/
def bestReplica? (v : View) (s : ShardId) : Option Copy :=
  ((v.promotable s).find? (·.isStarted)).or (v.promotable s).head?

/-- Makes the best active replica the primary of a shard that lost its assigned primary,
and gives its node.  Unassigned primary slots of the shard become replica slots. -/
def promoteReplica (s : ShardId) : Mutation (Option NodeId) := do
  let v ← get
  match v.primary? s with
  | some primary => broken s!"cannot promote a replica of {s} while {primary} is primary"
  | none =>
    match v.bestReplica? s with
    | none => pure none
    | some replica =>
      let n := replica.node.getD ""
      replaceCopy (← attempt replica.promote)
      match replica.peer with
      | some target => replaceCopy (← attempt (← expectCopy s target).promote)
      | none => pure ()
      modify fun v => { v with
        unassigned := v.unassigned.map fun c =>
          if c.shard == s && c.primary then c.demote else c }
      note (.promoted s n)
      pure (some n)

/-- Adds an unassigned slot. -/
def addUnassigned (c : Copy) : Mutation Unit := do
  if !c.isUnassigned then
    broken s!"{c} is not unassigned"
  modify fun v => { v with unassigned := v.unassigned ++ [c] }

/-- Forgets a node that holds nothing. -/
def removeNode (n : NodeId) : Mutation Unit := do
  let v ← get
  let held := (v.nodes.get? n).getD SortedMap.empty
  if !held.isEmpty then
    broken s!"node [{n}] still holds {held.size} copies"
  set { v with nodes := v.nodes.erase n, departed := SortedSet.add v.departed n }

/-- Enters a stored copy: a slot, or an assigned copy with the target of its move. -/
def load (c : Copy) : Mutation Unit := do
  if c.isUnassigned then
    modify fun v => { v with unassigned := v.unassigned ++ [c] }
  else
    addCopy c
    match c.relocationTarget? with
    | some target => addCopy target
    | none => pure ()

/-- The working view of a routing table in a cluster with the given members. -/
def ofTable (members : List NodeId) (table : RoutingTable) : Except Fault View :=
  match (table.copies.forM load).run (ofMembers members) with
  | .ok _ v => .ok v
  | .error e _ => .error e

end View

end ShardAllocation
