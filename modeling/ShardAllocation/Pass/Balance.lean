/-
Rebalancing: moving started copies from loaded to less loaded nodes.

Every move goes from a node to one that holds fewer copies by more than the threshold,
which counts as at least one.  A move turns a started copy into one that moves, so the
number of started copies bounds the number of moves.
-/
import ShardAllocation.Pass.Placement

namespace ShardAllocation

/-- A move for balance. -/
structure BalanceMove where
  shard : ShardId
  source : NodeId
  target : NodeId
  deriving DecidableEq, Repr

namespace Pass

/-- The spread that is left alone: the threshold of the settings, at least one. -/
def spread (p : Pass) : Binary := Binary.max p.settings.rebalance.threshold (Binary.natural 1)

/-- Whether a difference in load calls for a move. -/
def exceedsSpread (p : Pass) (difference : Nat) : Bool :=
  !Binary.le (Binary.natural difference) p.spread

/-- The order by load from the heaviest, then by name. -/
def heavier (a b : Nat × DataNode) : Bool :=
  b.1 < a.1 || (a.1 == b.1 && (compare a.2.id b.2.id).isLE)

/-- The first started copy of the source that may move to the target. -/
def movableCopy? (ds : List Decider) (p : Pass) (source target : DataNode) : Option Copy :=
  (source.copies.filter (·.isStarted)).find? fun c =>
    Decider.shardRebalance ds c p == .yes &&
      (Decider.allocation ds c target p false).decision == .yes

/-- The next move for balance: the heaviest source and its lightest target first. -/
def nextMove? (ds : List Decider) (p : Pass) : Option BalanceMove :=
  let targets := byWeight p.view
  (sortBy heavier targets).findSome? fun source =>
    (targets.takeWhile fun target => p.exceedsSpread (source.1 - target.1)).findSome? fun target =>
      (movableCopy? ds p source.2 target.2).map fun c => ⟨c.shard, source.2.id, target.2.id⟩

/-- Makes up to so many moves for balance, as long as the deciders let the rebalancer
run. -/
def rebalanceUpTo (ds : List Decider) : Nat → Phase Unit
  | 0 => pure ()
  | moves + 1 => do
    let p ← get
    if Decider.clusterRebalance ds p = .yes then
      match nextMove? ds p with
      | some m =>
        mutate (View.relocate m.shard m.source m.target)
        rebalanceUpTo ds moves
      | none => pure ()

/-- Moves started copies for balance until no move is left or allowed. -/
def rebalance (ds : List Decider) : Phase Unit := do
  rebalanceUpTo ds ((← get).view.countInState .started)

end Pass

end ShardAllocation
