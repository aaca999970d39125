/-
Commands of an operator: move, allocate and cancel.

A command is checked in full against the working view before anything changes, so a
rejected command leaves the view as it was.  A rejection is an answer, not a fault.
Deciders that say no veto a command; those that say not now do not, for the operator
asked for it explicitly.
-/
import ShardAllocation.Decider.Basic

namespace ShardAllocation

/-- A command of an operator. -/
inductive Command where
  /-- Moves a started copy. -/
  | move (shard : ShardId) (source target : NodeId)
  /-- Places an unassigned copy.  Only with `allowPrimary` may it be the primary, for an
  empty primary replaces whatever data was lost. -/
  | allocate (shard : ShardId) (node : NodeId) (allowPrimary : Bool)
  /-- Ends a recovery or a move in flight. -/
  | cancel (shard : ShardId) (node : NodeId) (allowPrimary : Bool)
  deriving DecidableEq, Repr

namespace Command

/-- The shard that a command is about. -/
def shard : Command → ShardId
  | move s .. => s
  | allocate s .. => s
  | cancel s .. => s

/-- The written form of a command. -/
def text : Command → String
  | move shard source target => s!"move {shard} [{source}] -> [{target}]"
  | allocate shard node _ => s!"allocate {shard} on [{node}]"
  | cancel shard node _ => s!"cancel {shard} on [{node}]"

end Command

/-- Why a command was rejected. -/
inductive Rejection where
  | unknownShard (shard : ShardId)
  | unknownNode (node : NodeId)
  | nodeNotLive (node : NodeId)
  | alreadyAllocated (shard : ShardId) (node : NodeId)
  | notOnNode (shard : ShardId) (node : NodeId)
  | invalidState (shard : ShardId) (node : NodeId) (state : CopyState) (action : String)
  | noUnassignedCopy (shard : ShardId)
  | primaryNotAllowed (shard : ShardId)
  | vetoed (shard : ShardId) (node : NodeId) (reasons : String)
  deriving DecidableEq, Repr

namespace Rejection

/-- The wording of a rejection. -/
def message : Rejection → String
  | unknownShard shard => s!"shard {shard} does not exist"
  | unknownNode node => s!"node [{node}] is not part of the cluster"
  | nodeNotLive node => s!"node [{node}] left the cluster"
  | alreadyAllocated shard node => s!"node [{node}] already holds a copy of {shard}"
  | notOnNode shard node => s!"node [{node}] holds no copy of {shard}"
  | invalidState shard node state action =>
    s!"cannot {action} {shard} on [{node}] in state {state}"
  | noUnassignedCopy shard => s!"{shard} has no unassigned copy"
  | primaryNotAllowed shard =>
    s!"{shard} is a primary, set allow_primary to accept the consequences"
  | vetoed shard node reasons => s!"{shard} vetoed on [{node}]: {reasons}"

end Rejection

/-- What became of a command. -/
structure CommandOutcome where
  command : Command
  rejection : Option Rejection
  deriving DecidableEq, Repr

namespace CommandOutcome

/-- Whether the command was carried out. -/
def isApplied (o : CommandOutcome) : Bool := o.rejection.isNone

end CommandOutcome

/-- The change that an accepted command stands for. -/
inductive Plan where
  | relocate (source target : NodeId)
  | place (copy : Copy) (node : NodeId)
  | cancelRelocation (source : NodeId)
  | unassign (node : NodeId)
  deriving DecidableEq, Repr

namespace Pass

/-- The node has to be a member. -/
def checkLive (v : View) (n : NodeId) : Except Rejection Unit :=
  if v.isLive n then .ok ()
  else if v.hasDeparted n then .error (.nodeNotLive n)
  else .error (.unknownNode n)

/-- The copy of the shard on the node, which has to be there. -/
def heldCopy (v : View) (s : ShardId) (n : NodeId) : Except Rejection Copy :=
  match v.copyOn? s n with
  | some c => .ok c
  | none => .error (.notOnNode s n)

/-- The target must not hold the shard already, and no decider may say no. -/
def checkTarget (ds : List Decider) (p : Pass) (c : Copy) (n : NodeId) :
    Except Rejection Unit :=
  if (p.view.copyOn? c.shard n).isSome then .error (.alreadyAllocated c.shard n)
  else
    match p.view.node? n with
    | none => .error (.unknownNode n)
    | some node =>
      let d := Decider.allocation ds c node p false
      if d.decision = .no then .error (.vetoed c.shard n d.reasons) else .ok ()

/-- The unassigned copy that an allocation takes: the primary if that is allowed, else a
replica. -/
def chooseSlot (v : View) (s : ShardId) (allowPrimary : Bool) : Except Rejection Copy :=
  let slots := v.unassignedOf s
  match slots.find? (·.primary), slots.find? (!·.primary) with
  | some primary, replica =>
    if allowPrimary then .ok primary
    else
      match replica with
      | some replica => .ok replica
      | none => .error (.primaryNotAllowed s)
  | none, some replica => .ok replica
  | none, none => .error (.noUnassignedCopy s)

/-- How an operator ends what a copy is doing. -/
def cancelPlan (c : Copy) (s : ShardId) (n : NodeId) (allowPrimary : Bool) :
    Except Rejection Plan :=
  if c.isRelocationTarget then .ok (.cancelRelocation (c.peer.getD ""))
  else if c.isRelocating then .ok (.cancelRelocation n)
  else if c.isInitializing then
    if c.primary && !allowPrimary then .error (.primaryNotAllowed s) else .ok (.unassign n)
  else .error (.invalidState c.shard n c.state "cancel")

/-- Checks a command against the working view. -/
def plan (ds : List Decider) (p : Pass) (command : Command) : Except Rejection Plan := do
  if !p.state.metadata.knows command.shard then
    throw (.unknownShard command.shard)
  match command with
  | .move s source target =>
    checkLive p.view target
    let c ← heldCopy p.view s source
    if !c.isStarted then
      throw (.invalidState c.shard source c.state "move")
    checkTarget ds p c target
    pure (.relocate source target)
  | .allocate s n allowPrimary =>
    checkLive p.view n
    let c ← chooseSlot p.view s allowPrimary
    checkTarget ds p c n
    pure (.place c n)
  | .cancel s n allowPrimary =>
    checkLive p.view n
    let c ← heldCopy p.view s n
    cancelPlan c s n allowPrimary

/-- Carries out the change that a command stands for. -/
def carryOut (s : ShardId) : Plan → Phase Unit
  | .relocate source target => mutate (View.relocate s source target)
  | .place c n => mutate (View.place c n)
  | .cancelRelocation source => mutate (View.cancelRelocation s source)
  | .unassign n => do
    let p ← get
    mutate (View.unassign s n
      (p.unassignedInfo .rerouteCancelled (some "cancelled by allocation command")))

/-- Executes one command. -/
def execute (ds : List Decider) (command : Command) : Phase CommandOutcome := do
  match plan ds (← get) command with
  | .error rejection => pure { command, rejection := some rejection }
  | .ok plan =>
    carryOut command.shard plan
    pure { command, rejection := none }

/-- Executes commands in order, each against what the earlier ones left. -/
def executeAll (ds : List Decider) : List Command → Phase (List CommandOutcome)
  | [] => pure []
  | command :: rest => do
    let outcome ← execute ds command
    let outcomes ← executeAll ds rest
    pure (outcome :: outcomes)

end Pass

end ShardAllocation
