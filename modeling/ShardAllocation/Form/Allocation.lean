/-
The plain form of decisions, commands, explanations and health.
-/
import ShardAllocation.Cluster.Health
import ShardAllocation.Explanation
import ShardAllocation.Form.Routing

namespace ShardAllocation

namespace Form

/-- Reads an answer of a decider. -/
def toDecision : Datum → Reading Decision := oneOf Decision.all (·.text)

/-- The plain form of a verdict. -/
def ofVerdict (v : Verdict) : Datum :=
  .record [("decider", .text v.decider), ("decision", .text v.decision.text),
    ("reason", .text v.reason)]

/-- Reads a verdict. -/
def toVerdict (d : Datum) : Reading Verdict := do
  let decider ← required d "decider" text
  let decision ← required d "decision" toDecision
  let reason ← required d "reason" text
  pure { decider, decision, reason }

/-- The plain form of the decision about a node. -/
def ofNodeDecision (n : NodeDecision) : Datum :=
  .record [("node_id", .text n.node), ("decision", .text n.decision.text),
    ("verdicts", .list (n.verdicts.map ofVerdict))]

/-- Reads the decision about a node. -/
def toNodeDecision (d : Datum) : Reading NodeDecision := do
  let decision ← required d "decision" toDecision
  let node ← required d "node_id" text
  let verdicts ← required d "verdicts" (listOf toVerdict)
  pure { node, decision, verdicts }

/-- The plain form of a failed attempt. -/
def ofAttempt (a : Attempt) : Datum :=
  .record [("primary", .bool a.primary), ("outcome", .text a.outcome.text),
    ("nodes", .list (a.nodes.map ofNodeDecision))]

/-- The plain form of a command. -/
def ofCommand : Command → Datum
  | .move shard source target =>
    .record [("type", .text "move"), ("shard_id", ofShardId shard),
      ("from_node", .text source), ("to_node", .text target)]
  | .allocate shard node allowPrimary =>
    .record [("type", .text "allocate"), ("shard_id", ofShardId shard),
      ("node", .text node), ("allow_primary", .bool allowPrimary)]
  | .cancel shard node allowPrimary =>
    .record [("type", .text "cancel"), ("shard_id", ofShardId shard),
      ("node", .text node), ("allow_primary", .bool allowPrimary)]

/-- Reads a command. -/
def toCommand (d : Datum) : Reading Command := do
  let kind ← required d "type" text
  let shard ← required d "shard_id" toShardId
  match kind with
  | "move" =>
    let source ← required d "from_node" text
    let target ← required d "to_node" text
    pure (.move shard source target)
  | "allocate" =>
    let node ← required d "node" text
    let allowPrimary ← orDefault d "allow_primary" false bool
    pure (.allocate shard node allowPrimary)
  | "cancel" =>
    let node ← required d "node" text
    let allowPrimary ← orDefault d "allow_primary" false bool
    pure (.cancel shard node allowPrimary)
  | _ => misshapen

/-- The plain form of a rejection: its kind with what it is about. -/
def ofRejection : Rejection → Datum
  | .unknownShard shard => .record [("UnknownShard", ofShardId shard)]
  | .unknownNode node => .record [("UnknownNode", .text node)]
  | .nodeNotLive node => .record [("NodeNotLive", .text node)]
  | .alreadyAllocated shard node => .record [("AlreadyAllocated", place shard node [])]
  | .notOnNode shard node => .record [("NotOnNode", place shard node [])]
  | .invalidState shard node state action =>
    .record [("InvalidState", place shard node
      [("state", .text state.text), ("action", .text action)])]
  | .noUnassignedCopy shard => .record [("NoUnassignedCopy", ofShardId shard)]
  | .primaryNotAllowed shard => .record [("PrimaryNotAllowed", ofShardId shard)]
  | .vetoed shard node reasons =>
    .record [("Vetoed", place shard node [("reasons", .text reasons)])]
where
  place (shard : ShardId) (node : NodeId) (more : List (String × Datum)) : Datum :=
    .record (("shard_id", ofShardId shard) :: ("node", .text node) :: more)

/-- The plain form of the result of a command. -/
def ofCommandResult : Option Rejection → Datum
  | none => .record [("Ok", .null)]
  | some rejection => .record [("Err", ofRejection rejection)]

/-- The plain form of an explanation. -/
def ofExplanation (e : Explanation) : Datum :=
  .record ([("shard_id", ofShardId e.shard), ("copy", ofCopy e.copy),
      ("decision", .text e.decision.text)] ++
    Datum.optionalField "remain" ofNodeDecision e.remain ++
    [("nodes", .list (e.nodes.map ofNodeDecision)),
      ("history", .list (e.history.map ofAttempt))])

/-- The plain form of the health of a cluster. -/
def ofHealth (h : ClusterHealth) : Datum :=
  .record [("status", .text h.status.text), ("version", .natural h.version),
    ("nodes", .natural h.nodes), ("active_primaries", .natural h.activePrimaries),
    ("active", .natural h.active), ("initializing", .natural h.initializing),
    ("relocating", .natural h.relocating), ("unassigned", .natural h.unassigned),
    ("missing", .natural h.missing)]

end Form

end ShardAllocation
