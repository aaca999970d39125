/-
One pass over the cluster: from a snapshot and a trigger to the next snapshot.

The phases run in a fixed order: reports, departed nodes, commands, allocation,
replenishment, moves, rebalancing.  The result is checked before it is frozen.  A pass
that changes neither the routing table nor the history gives back the snapshot that it
started from.

* `conclude_unchanged` — the snapshot of a pass without changes is the one it started from;
* `version_conclude` — a pass counts the version up by one exactly if it changed something.
-/
import ShardAllocation.Decider.Standard
import ShardAllocation.Pass.Balance
import ShardAllocation.Pass.Command
import ShardAllocation.Pass.Departure

namespace ShardAllocation

/-- What a pass has to take into account. -/
structure Trigger where
  reason : String
  /-- The time that is stamped on every copy that the pass unassigns. -/
  time : Instant
  started : List StartedReport := []
  failed : List FailedReport := []
  commands : List Command := []
  deriving DecidableEq, Repr

namespace Trigger

/-- Folds a later trigger into this one, keeping the order of its parts. -/
def merge (t later : Trigger) : Trigger :=
  { reason := if t.reason = later.reason then t.reason else s!"{t.reason}, {later.reason}"
    time := t.time.max later.time
    started := t.started ++ later.started
    failed := t.failed ++ later.failed
    commands := t.commands ++ later.commands }

end Trigger

/-- What a pass did. -/
structure RerouteResult where
  /-- The next snapshot, or the one that the pass started from if nothing changed. -/
  state : ClusterState
  changed : Bool
  transitions : List Transition
  /-- The recoveries to start, one for each copy that the pass leaves initializing. -/
  recoveries : List Recovery
  outcomes : List CommandOutcome
  deriving DecidableEq

/-- Allocation under fixed settings and deciders. -/
structure Allocator where
  settings : Settings
  deciders : List Decider := Decider.standard

namespace Allocator

/-- The phases of a pass in their order. -/
def phases (deciders : List Decider) (t : Trigger) : Phase (List CommandOutcome) := do
  t.started.forM Pass.applyStarted
  t.failed.forM Pass.applyFailed
  Pass.reconcile
  let outcomes ← Pass.executeAll deciders t.commands
  Pass.allocateUnassigned deciders
  Pass.replenishReplicas deciders
  Pass.moveShards deciders
  Pass.rebalance deciders
  pure outcomes

/-- The recoveries that some transitions ask for and that are still to be made. -/
def pendingRecoveries (v : View) (transitions : List Transition) : List Recovery :=
  (transitions.filterMap (·.recovery?)).filter fun r =>
    (v.copyOn? r.shard r.target).any (·.isInitializing)

/-- Freezes the view that the phases left into the result of the pass. -/
def conclude (p : Pass) (outcomes : List CommandOutcome) : RerouteResult :=
  let state := p.state
  let table := p.view.freeze state.metadata
  let transitions := p.view.transitions
  if table ≠ state.table ∨ p.history ≠ state.history then
    { state := state.next table p.history, changed := true, transitions
      recoveries := pendingRecoveries p.view transitions, outcomes }
  else { state, changed := false, transitions, recoveries := [], outcomes }

/-- Runs one pass.  Settings that make no sense refuse it; any other fault is fatal, and
nothing of the pass may be published. -/
def reroute (a : Allocator) (state : ClusterState) (t : Trigger) :
    Except Fault RerouteResult := do
  a.settings.validate
  let p ← Pass.begin state a.settings t.time
  match (phases a.deciders t).run p with
  | .error fault _ => throw fault
  | .ok outcomes p => do
    p.view.validate state.metadata
    pure (conclude { p with state } outcomes)

theorem conclude_unchanged {p : Pass} {outcomes : List CommandOutcome}
    (h : (conclude p outcomes).changed = false) : (conclude p outcomes).state = p.state := by
  unfold conclude at *
  simp only at *
  split at h
  · simp at h
  · rename_i hsame
    simp [hsame]

theorem version_conclude (p : Pass) (outcomes : List CommandOutcome) :
    (conclude p outcomes).state.version =
      p.state.version + (conclude p outcomes).changed.toNat := by
  simp only [conclude]
  split <;> rfl

end Allocator

end ShardAllocation
