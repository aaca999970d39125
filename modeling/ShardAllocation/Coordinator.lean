/-
The coordinator: the single writer of the cluster state.

Requests that arrive together form a batch.  A batch is folded into one working snapshot
and one trigger, and one pass is run over them.  If the pass succeeds, the new snapshot
is published, its recoveries are sent out and every waiting caller gets an answer; if it
fails, nothing is published and every waiting caller gets the fault.  A fatal fault ends
the coordinator, as does a request to shut down.

Callers are told apart by tickets, the positions of their requests in the batch.
-/
import ShardAllocation.Explanation

namespace ShardAllocation

/-- A request to the coordinator. -/
inductive Request where
  | nodesChanged (members : Membership)
  | shardStarted (report : StartedReport)
  | shardFailed (report : FailedReport)
  | command (command : Command)
  | reroute
  | createIndex (index : IndexMetadata)
  | setReplicas (index : String) (replicas : Nat)
  | explain (shard : ShardId)
  | shutdown

/-- An answer of the coordinator. -/
inductive Answer where
  | outcome (outcome : CommandOutcome)
  | rerouted (state : ClusterState) (changed : Bool)
  | state (state : ClusterState)
  | explanation (explanation : Explanation)
  | fault (fault : Fault)

/-- What a caller waits for while the pass runs. -/
inductive Awaited where
  /-- The outcome of the command at a position of the trigger. -/
  | outcome (position : Nat)
  | pass
  | state
  | explanation (shard : ShardId)

/-- An answer for the caller with a ticket. -/
structure Delivery where
  ticket : Nat
  answer : Answer

/-- A caller that waits for the pass. -/
structure Waiter where
  ticket : Nat
  awaited : Awaited

/-- A batch as far as it has been folded together. -/
structure Gathering where
  working : ClusterState
  trigger : Trigger
  reasons : List String := []
  waiters : List Waiter := []
  /-- The answers to requests that were refused. -/
  refused : List Delivery := []

namespace Gathering

/-- Adds the reason for a pass, unless it repeats the one before. -/
def because (g : Gathering) (reason : String) : Gathering :=
  if g.reasons.getLast? = some reason then g else { g with reasons := g.reasons ++ [reason] }

/-- Lets a caller wait for the pass. -/
def await (g : Gathering) (ticket : Nat) (awaited : Awaited) : Gathering :=
  { g with waiters := g.waiters ++ [⟨ticket, awaited⟩] }

/-- Takes over a declared change, or answers the caller with the refusal. -/
def declare (g : Gathering) (ticket : Nat) (reason : String) (change : Except Fault ClusterState) :
    Gathering :=
  match change with
  | .ok working => (({ g with working }).await ticket .state).because reason
  | .error fault => { g with refused := g.refused ++ [⟨ticket, .fault fault⟩] }

/-- Folds one request in. -/
def add (g : Gathering) (ticket : Nat) : Request → Gathering
  | .nodesChanged members =>
    ({ g with working := g.working.withMembers members }).because "nodes changed"
  | .shardStarted report =>
    ({ g with trigger.started := g.trigger.started ++ [report] }).because "shard started"
  | .shardFailed report =>
    ({ g with trigger.failed := g.trigger.failed ++ [report] }).because "shard failed"
  | .command command =>
    let position := g.trigger.commands.length
    (({ g with trigger.commands := g.trigger.commands ++ [command] }).await ticket
      (.outcome position)).because "allocation command"
  | .reroute => (g.await ticket .pass).because "reroute requested"
  | .createIndex index =>
    g.declare ticket "index created" (g.working.withIndex index g.trigger.time)
  | .setReplicas index replicas =>
    g.declare ticket "replicas updated" (g.working.withReplicas index replicas g.trigger.time)
  | .explain shard => g.await ticket (.explanation shard)
  | .shutdown => g

/-- Folds requests in, whose tickets count up from `ticket`. -/
def addAll (g : Gathering) (ticket : Nat) : List Request → Gathering
  | [] => g
  | r :: rest => (g.add ticket r).addAll (ticket + 1) rest

/-- The trigger with the reasons of the batch. -/
def finish (g : Gathering) : Gathering :=
  if g.reasons.isEmpty then g
  else { g with trigger.reason := Text.join ", " g.reasons }

/-- Folds a batch together. -/
def ofBatch (state : ClusterState) (time : Instant) (batch : List Request) : Gathering :=
  (addAll { working := state, trigger := { reason := "coordinator", time } } 0 batch).finish

end Gathering

/-- Whether the coordinator still takes requests, and how it ended if not. -/
inductive CoordinatorStatus where
  | running
  | stopped
  | failed (fault : Fault)
  deriving DecidableEq, Repr

/-- The coordinator between two batches. -/
structure Coordinator where
  allocator : Allocator
  /-- The snapshot that the next batch starts from. -/
  state : ClusterState
  /-- The snapshot that readers see. -/
  published : ClusterState
  status : CoordinatorStatus := .running

/-- What processing a batch gave. -/
structure BatchResult where
  coordinator : Coordinator
  /-- The snapshot that readers are sent, if there is a new one. -/
  publication : Option ClusterState := none
  answers : List Delivery
  recoveries : List Recovery := []
  /-- The fault that the pass of the batch ended with. -/
  fault : Option Fault := none

namespace Coordinator

/-- A coordinator that starts from a snapshot. -/
def start (allocator : Allocator) (state : ClusterState) : Coordinator :=
  { allocator, state, published := state }

/-- The answer to a waiting caller after a pass that succeeded; `outcomes` are those that no
caller was given yet. -/
def answer (a : Allocator) (r : RerouteResult) (outcomes : List (Option CommandOutcome)) :
    Awaited → Answer
  | .outcome position =>
    match outcomes[position]?.join with
    | some outcome => .outcome outcome
    | none => .fault (.internal s!"missing outcome for command {position}")
  | .pass => .rerouted r.state r.changed
  | .state => .state r.state
  | .explanation shard =>
    match a.explain r.state shard with
    | .ok explanation => .explanation explanation
    | .error fault => .fault fault

/-- Answers the waiting callers one after the other.  An outcome that is given to a caller is
taken from the rest. -/
def answerAll (a : Allocator) (r : RerouteResult) (outcomes : List (Option CommandOutcome)) :
    List Waiter → List Delivery
  | [] => []
  | w :: rest =>
    let left := match w.awaited with
      | .outcome position => outcomes.set position none
      | _ => outcomes
    ⟨w.ticket, answer a r outcomes w.awaited⟩ :: answerAll a r left rest

/-- The coordinator after a pass that failed: only a fatal fault ends it. -/
def afterFault (c : Coordinator) (fault : Fault) : Coordinator :=
  if fault.isFatal then { c with status := .failed fault } else c

/-- What is published after a pass over `working` that succeeded. -/
def publication? (c : Coordinator) (working : ClusterState) (r : RerouteResult) :
    Option ClusterState :=
  if working.version ≠ c.state.version ∨ r.changed then some r.state else none

/-- The coordinator after a pass over `working` that succeeded. -/
def afterPass (c : Coordinator) (working : ClusterState) (r : RerouteResult) : Coordinator :=
  { c with
    state := r.state
    published := (c.publication? working r).getD c.published }

/-- Runs the pass of a batch. -/
def process (c : Coordinator) (time : Instant) (batch : List Request) : BatchResult :=
  let g := Gathering.ofBatch c.state time batch
  match c.allocator.reroute g.working g.trigger with
  | .error fault =>
    { coordinator := c.afterFault fault
      answers := g.refused ++ g.waiters.map fun w => ⟨w.ticket, .fault fault.duplicate⟩
      fault := some fault }
  | .ok r =>
    { coordinator := c.afterPass g.working r
      publication := c.publication? g.working r
      answers := g.refused ++ answerAll c.allocator r (r.outcomes.map some) g.waiters
      recoveries := r.recoveries }

/-- Whether a batch asks the coordinator to stop. -/
def asksToStop (batch : List Request) : Bool :=
  batch.any fun
    | .shutdown => true
    | _ => false

/-- Stops a coordinator that still runs. -/
def stop (c : Coordinator) : Coordinator :=
  if c.status = .running then { c with status := .stopped } else c

/-- Takes a batch: a coordinator that has ended refuses every request. -/
def submit (c : Coordinator) (time : Instant) (batch : List Request) : BatchResult :=
  if c.status ≠ .running then
    { coordinator := c
      answers := (List.range batch.length).map fun ticket => ⟨ticket, .fault .coordinatorClosed⟩ }
  else if batch.isEmpty then { coordinator := c, answers := [] }
  else
    let r := c.process time batch
    if asksToStop batch then { r with coordinator := r.coordinator.stop } else r

end Coordinator

end ShardAllocation
