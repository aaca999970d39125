/-
Answers of the deciders.

A decider says yes, wait or no; `Decision.worst` combines answers.  A verdict names the
decider and its reason; a node decision gathers the verdicts about one node.

* `worst_assoc`, `worst_comm`, `worst_self` — the order of the answers does not matter;
* `worst_eq_or`, `rank_le_worst_left`, `rank_le_worst_right` — the more forbidding one comes out.
-/
import ShardAllocation.Shard.Id
import ShardAllocation.Text.Blank

namespace ShardAllocation

/-- An answer: yes, not now, or no. -/
inductive Decision where
  | yes
  | throttle
  | no
  deriving DecidableEq, Repr

namespace Decision

/-- The written form of an answer. -/
def text : Decision → String
  | yes => "YES"
  | throttle => "THROTTLE"
  | no => "NO"

instance : ToString Decision := ⟨text⟩

/-- Every answer. -/
def all : List Decision := [yes, throttle, no]

/-- How strongly an answer forbids. -/
def rank : Decision → Nat
  | yes => 0
  | throttle => 1
  | no => 2

/-- The more forbidding of two answers. -/
def worst (a b : Decision) : Decision := if a.rank ≤ b.rank then b else a

/-- The least forbidding of some answers; no, if there are none. -/
def best (answers : List Decision) : Decision :=
  answers.foldl (fun a b => if a.rank ≤ b.rank then a else b) no

theorem worst_comm (a b : Decision) : worst a b = worst b a := by
  cases a <;> cases b <;> rfl

theorem worst_assoc (a b c : Decision) : worst (worst a b) c = worst a (worst b c) := by
  cases a <;> cases b <;> cases c <;> rfl

@[simp] theorem worst_self (a : Decision) : worst a a = a := by
  cases a <;> rfl

theorem yes_worst (a : Decision) : worst yes a = a := by
  cases a <;> rfl

theorem no_worst (a : Decision) : worst no a = no := by
  cases a <;> rfl

theorem worst_eq_or (a b : Decision) : worst a b = a ∨ worst a b = b := by
  cases a <;> cases b <;> decide

theorem rank_le_worst_left (a b : Decision) : a.rank ≤ (worst a b).rank := by
  cases a <;> cases b <;> decide

theorem rank_le_worst_right (a b : Decision) : b.rank ≤ (worst a b).rank := by
  cases a <;> cases b <;> decide

theorem eq_yes_of_rank_le {a : Decision} (h : a.rank ≤ yes.rank) : a = yes := by
  cases a with
  | yes => rfl
  | throttle | no => exact absurd h (by decide)

theorem eq_no_of_le_rank {a : Decision} (h : no.rank ≤ a.rank) : a = no := by
  cases a with
  | no => rfl
  | yes | throttle => exact absurd h (by decide)

end Decision

/-- The answer of one decider and its reason. -/
structure Verdict where
  decider : String
  decision : Decision
  reason : String
  deriving DecidableEq, Repr

namespace Verdict

/-- The written form of a verdict. -/
def text (v : Verdict) : String := s!"[{v.decider}] {v.decision}: {v.reason}"

end Verdict

/-- The combined answer of the deciders about one node. -/
structure NodeDecision where
  node : NodeId
  decision : Decision
  verdicts : List Verdict
  deriving DecidableEq, Repr

namespace NodeDecision

/-- The verdicts that give the combined answer, joined. -/
def reasons (d : NodeDecision) : String :=
  Text.join "; " ((d.verdicts.filter fun v => v.decision == d.decision).map (·.text))

end NodeDecision

end ShardAllocation
