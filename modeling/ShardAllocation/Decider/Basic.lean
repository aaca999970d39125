/-
Deciders: named constraints on where copies may be.

A decider answers four questions from the context of a pass, which it never changes.
The answer about a node is the worst of all deciders.  When no explanation is wanted,
the verdicts after the first no are left out, and so are those that say yes.

* `worstOf_cons` — the worst answer, verdict by verdict;
* `decision_combine` — the combined answer is the worst one, explained or not.
-/
import ShardAllocation.Decider.Decision
import ShardAllocation.Pass.Basic

namespace ShardAllocation

/-- A constraint on the placement of copies. -/
structure Decider where
  name : String
  /-- May the copy be allocated to, or relocated onto, the node? -/
  canAllocate : Copy → DataNode → Pass → Verdict := fun _ _ _ => ⟨name, .yes, "no constraint"⟩
  /-- May the copy stay on the node that holds it? -/
  canRemain : Copy → DataNode → Pass → Verdict := fun _ _ _ => ⟨name, .yes, "no constraint"⟩
  /-- May the started copy be moved for balance? -/
  canRebalanceShard : Copy → Pass → Verdict := fun _ _ => ⟨name, .yes, "no constraint"⟩
  /-- May the rebalancer run at all? -/
  canRebalanceCluster : Pass → Verdict := fun _ => ⟨name, .yes, "no constraint"⟩

namespace Decider

/-- The worst answer of some verdicts. -/
def worstOf (verdicts : List Verdict) : Decision :=
  verdicts.foldl (fun d v => d.worst v.decision) .yes

/-- The verdicts up to the first no, which is kept. -/
def upToNo : List Verdict → List Verdict
  | [] => []
  | v :: rest => if v.decision = .no then [v] else v :: upToNo rest

/-- The combined answer about a node.  Without an explanation nobody is asked after the
first no. -/
def combine (node : NodeId) (explain : Bool) (verdicts : List Verdict) : NodeDecision :=
  let heard := if explain then verdicts else upToNo verdicts
  { node
    decision := worstOf heard
    verdicts := if explain then heard else heard.filter fun v => v.decision != .yes }

/-- May the copy be allocated to the node, in the view of all deciders? -/
def allocation (ds : List Decider) (c : Copy) (n : DataNode) (p : Pass) (explain : Bool) :
    NodeDecision :=
  combine n.id explain (ds.map fun d => d.canAllocate c n p)

/-- May the copy stay on the node, in the view of all deciders? -/
def remaining (ds : List Decider) (c : Copy) (n : DataNode) (p : Pass) (explain : Bool) :
    NodeDecision :=
  combine n.id explain (ds.map fun d => d.canRemain c n p)

/-- May the copy be moved for balance, in the view of all deciders? -/
def shardRebalance (ds : List Decider) (c : Copy) (p : Pass) : Decision :=
  worstOf (ds.map fun d => d.canRebalanceShard c p)

/-- May the rebalancer run, in the view of all deciders? -/
def clusterRebalance (ds : List Decider) (p : Pass) : Decision :=
  worstOf (ds.map fun d => d.canRebalanceCluster p)

theorem foldl_worst (verdicts : List Verdict) (d : Decision) :
    verdicts.foldl (fun d v => d.worst v.decision) d = d.worst (worstOf verdicts) := by
  induction verdicts generalizing d with
  | nil => cases d <;> rfl
  | cons v rest ih =>
    have hcons : worstOf (v :: rest) = (Decision.yes.worst v.decision).worst (worstOf rest) := ih _
    rw [List.foldl_cons, ih, hcons, Decision.yes_worst, Decision.worst_assoc]

theorem worstOf_cons (v : Verdict) (rest : List Verdict) :
    worstOf (v :: rest) = v.decision.worst (worstOf rest) := by
  rw [worstOf, List.foldl_cons, foldl_worst, Decision.yes_worst]

/-- A no decides, whatever comes after it. -/
theorem worstOf_upToNo (verdicts : List Verdict) :
    worstOf (upToNo verdicts) = worstOf verdicts := by
  induction verdicts with
  | nil => rfl
  | cons v rest ih =>
    by_cases hv : v.decision = .no
    · simp [upToNo, hv, worstOf_cons, Decision.no_worst]
    · simp [upToNo, hv, worstOf_cons, ih]

/-- Explaining does not change the combined answer. -/
theorem decision_combine (node : NodeId) (explain : Bool) (verdicts : List Verdict) :
    (combine node explain verdicts).decision = worstOf verdicts := by
  cases explain with
  | false => exact worstOf_upToNo verdicts
  | true => rfl

end Decider

end ShardAllocation
