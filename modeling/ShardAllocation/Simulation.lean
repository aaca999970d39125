/-
Simulated clusters: indices are allocated on an in-process cluster, every recovery is
completed, and nodes are lost.

The simulation speaks to a coordinator as any caller does.  A round asks for a pass and
reports every recovery that was requested so far as completed; the cluster has settled
when a round changes nothing and completes nothing.  Every pass has a later time than the
one before.
-/
import ShardAllocation.Coordinator

namespace ShardAllocation

/-- What to simulate. -/
structure Simulation where
  nodes : List NodeId
  indices : List IndexMetadata
  /-- The nodes that are lost after the cluster has settled. -/
  lost : List NodeId := []
  /-- The shard to explain at the end. -/
  explain : Option ShardId := none
  /-- The number of rounds that the cluster has to settle in. -/
  rounds : Nat := 100
  deriving DecidableEq, Repr

/-- Why a simulation failed. -/
inductive SimulationFault where
  | refused (fault : Fault)
  | unsettled (rounds : Nat)
  deriving DecidableEq, Repr

namespace SimulationFault

/-- The wording of the fault. -/
def message : SimulationFault → String
  | refused fault => fault.message
  | unsettled rounds => s!"cluster did not converge within {rounds} rounds"

end SimulationFault

/-- What a simulation ended with. -/
structure SimulationResult where
  state : ClusterState
  explanation : Option Explanation

/-- A simulation between two requests. -/
structure SimulatedCluster where
  coordinator : Coordinator
  /-- The time of the latest pass. -/
  time : Instant
  /-- The recoveries that were requested and not completed yet. -/
  recovering : List Recovery := []

/-- A part of a simulation. -/
abbrev Simulating := StateT SimulatedCluster (Except SimulationFault)

namespace SimulatedCluster

/-- Sends one request; gives the answer to it, if it is one that is answered. -/
def send (request : Request) : Simulating (Option Answer) := do
  let c ← get
  let time := c.time.tick
  let r := c.coordinator.submit time [request]
  set { c with
    coordinator := r.coordinator
    time
    recovering := c.recovering ++ r.recoveries }
  pure (r.answers.head?.map (·.answer))

/-- Sends a request; a fault in its answer ends the simulation. -/
def ask (request : Request) : Simulating (Option Answer) := do
  match ← send request with
  | some (.fault fault) => throw (.refused fault)
  | answer => pure answer

/-- Reports a recovery as completed. -/
def complete (r : Recovery) : Simulating Unit :=
  discard (ask (.shardStarted { shard := r.shard, node := r.target }))

/-- Completes every recovery that was requested so far; gives their number. -/
def completeAll : Simulating Nat := do
  let recovering := (← get).recovering
  modify fun c => { c with recovering := [] }
  recovering.forM complete
  pure recovering.length

/-- Asks for a pass; gives whether it changed something. -/
def reroute : Simulating Bool := do
  match ← ask .reroute with
  | some (.rerouted _ changed) => pure changed
  | _ => pure false

/-- Runs rounds until the cluster has settled. -/
def converge (allowed : Nat) : Nat → Simulating Unit
  | 0 => throw (.unsettled allowed)
  | rounds + 1 => do
    let changed ← reroute
    let completed ← completeAll
    if completed = 0 ∧ !changed then pure () else converge allowed rounds

/-- Loses nodes. -/
def lose (nodes : List NodeId) : Simulating Unit := do
  let members := (← get).coordinator.published.members
  discard (ask (.nodesChanged (nodes.foldl SortedMap.erase members)))

/-- Explains a shard. -/
def explain (s : ShardId) : Simulating (Option Explanation) := do
  match ← ask (.explain s) with
  | some (.explanation explanation) => pure (some explanation)
  | _ => pure none

end SimulatedCluster

namespace Simulation

/-- The snapshot that a simulation starts from. -/
def start (s : Simulation) (time : Instant) : Except Fault ClusterState :=
  let members : Membership := SortedMap.ofList (s.nodes.map fun n => (n, none))
  s.indices.foldlM (fun state m => state.withIndex m time) (ClusterState.initial.withMembers members)

/-- The steps of a simulation. -/
def steps (s : Simulation) : Simulating SimulationResult := do
  SimulatedCluster.converge s.rounds s.rounds
  if !s.lost.isEmpty then
    SimulatedCluster.lose s.lost
    SimulatedCluster.converge s.rounds s.rounds
  let explanation ← match s.explain with
    | some shard => SimulatedCluster.explain shard
    | none => pure none
  pure { state := (← get).coordinator.published, explanation }

/-- Runs a simulation from a point in time on. -/
def run (s : Simulation) (settings : Settings) (time : Instant) :
    Except SimulationFault SimulationResult := do
  let state ← (s.start time).mapError .refused
  let coordinator := Coordinator.start { settings } state
  let (result, _) ← s.steps.run { coordinator, time }
  pure result

end Simulation

end ShardAllocation
