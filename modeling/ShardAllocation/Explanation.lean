/-
Why a copy is where it is, or nowhere.

An explanation asks every decider about every member, in the order in which nodes are
tried, and changes nothing.
-/
import ShardAllocation.Reroute

namespace ShardAllocation

/-- The answer to the question where a shard can go. -/
structure Explanation where
  shard : ShardId
  /-- The copy that is explained: an unassigned one, else the primary. -/
  copy : Copy
  /-- The best answer of any node. -/
  decision : Decision
  /-- Whether an assigned copy may stay where it is. -/
  remain : Option NodeDecision
  nodes : List NodeDecision
  history : List Attempt
  deriving DecidableEq, Repr

namespace Explanation

/-- The copy to explain: the first unassigned primary, else the first unassigned copy,
else the assigned primary. -/
def subject? (v : View) (s : ShardId) : Option Copy :=
  let slots := v.unassignedOf s
  ((slots.find? (·.primary)).or slots.head?).or (v.primary? s)

end Explanation

namespace Allocator

/-- Explains a copy in the context of a pass. -/
def explainCopy (deciders : List Decider) (p : Pass) (s : ShardId) (c : Copy) : Explanation :=
  let nodes := (Pass.candidates p.view).map fun n => Decider.allocation deciders c n p true
  { shard := s
    copy := c
    decision := Decision.best (nodes.map (·.decision))
    remain := (c.node.bind p.view.node?).map fun n => Decider.remaining deciders c n p true
    nodes
    history := p.history.attempts s }

/-- Explains a shard of a snapshot. -/
def explain (a : Allocator) (state : ClusterState) (s : ShardId) : Except Fault Explanation := do
  if !state.metadata.knows s then
    throw (.shardNotFound s.text)
  let p ← Pass.begin state a.settings (Instant.ofMilliseconds 0)
  match Explanation.subject? p.view s with
  | none => throw (.shardNotFound s.text)
  | some c => pure (explainCopy a.deciders p s c)

end Allocator

end ShardAllocation
