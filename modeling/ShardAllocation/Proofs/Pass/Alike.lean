/-
Passes that the deciders cannot tell apart.

The standard deciders look at the copies on the nodes, at the members and their disks and at
the settings.  They look neither at the history nor at the time, of the slots that wait they
ask only whether there are any, and of an unassigned copy they ask neither why nor since when.
So two passes that agree on what is looked at find the same nodes and the same moves.

* `Alike` — two passes agree on what deciders look at;
* `Alike.findNode_eq`, `Alike.remaining_eq`, `Alike.nextMove?_eq` — and find the same;
* `findNode_newUnassigned` — what a slot remembers does not matter.
-/
import ShardAllocation.Proofs.Pass.Strictness

namespace ShardAllocation

namespace Pass

/-- The two passes have the same copies on nodes, members and settings, and the same slots in
some order. -/
structure Alike (p q : Pass) : Prop where
  nodes : q.view.nodes = p.view.nodes
  holders : q.view.holders = p.view.holders
  live : q.view.live = p.view.live
  unassigned : q.view.unassigned.Perm p.view.unassigned
  members : q.state.members = p.state.members
  metadata : q.state.metadata = p.state.metadata
  settings : q.settings = p.settings

variable {p q r : Pass} {ds : List Decider} {d : Decider} {c : Copy} {node : DataNode}
variable {n : NodeId} {excluded : Option NodeId}

/-! ### One decider -/

/-- What a standard decider says of a copy does not depend on why the copy is unassigned. -/
theorem canAllocate_withInfo (hd : d ∈ Decider.standard) (c : Copy) (info : Option UnassignedInfo)
    (node : DataNode) (p : Pass) :
    d.canAllocate { c with info } node p = d.canAllocate c node p := by
  simp only [Decider.standard, List.mem_cons, List.not_mem_nil, or_false] at hd
  rcases hd with rfl | rfl | rfl | rfl | rfl | rfl | rfl | rfl <;> rfl

namespace Alike

theorem of_history (p : Pass) (history : History) (time : Instant) :
    p.Alike { p with history, time } :=
  ⟨rfl, rfl, rfl, .refl _, rfl, rfl, rfl⟩

theorem symm (h : p.Alike q) : q.Alike p :=
  ⟨h.nodes.symm, h.holders.symm, h.live.symm, h.unassigned.symm, h.members.symm,
    h.metadata.symm, h.settings.symm⟩

theorem verdicts_eq (h : p.Alike q) (hd : d ∈ Decider.standard) (c : Copy) :
    (∀ node, d.canAllocate c node q = d.canAllocate c node p) ∧
      (∀ node, d.canRemain c node q = d.canRemain c node p) ∧
      d.canRebalanceShard c q = d.canRebalanceShard c p := by
  obtain ⟨⟨nodes, holders, live, _, _, _⟩, _, ⟨_, members, metadata, _, _⟩, settings, _⟩ := p
  obtain ⟨⟨_, _, _, _, _, _⟩, _, ⟨_, _, _, _, _⟩, _, _⟩ := q
  obtain ⟨rfl, rfl, rfl, -, rfl, rfl, rfl⟩ := h
  simp only [Decider.standard, List.mem_cons, List.not_mem_nil, or_false] at hd
  rcases hd with rfl | rfl | rfl | rfl | rfl | rfl | rfl | rfl
  all_goals exact ⟨fun _ => rfl, fun _ => rfl, rfl⟩

theorem canRebalanceCluster_eq (h : p.Alike q) (hd : d ∈ Decider.standard) :
    d.canRebalanceCluster q = d.canRebalanceCluster p := by
  have hany : ∀ f : Copy → Bool, q.view.unassigned.any f = p.view.unassigned.any f :=
    fun f => h.unassigned.any_eq
  have hempty : q.view.unassigned.isEmpty = p.view.unassigned.isEmpty := h.unassigned.isEmpty_eq
  obtain ⟨⟨nodes, holders, live, _, _, _⟩, _, ⟨_, members, metadata, _, _⟩, settings, _⟩ := p
  obtain ⟨⟨_, _, _, _, _, _⟩, _, ⟨_, _, _, _, _⟩, _, _⟩ := q
  obtain ⟨rfl, rfl, rfl, -, rfl, rfl, rfl⟩ := h
  simp only [Decider.standard, List.mem_cons, List.not_mem_nil, or_false] at hd
  rcases hd with rfl | rfl | rfl | rfl | rfl | rfl | rfl | rfl
  case inr.inr.inr.inr.inr.inr.inl =>
    simp only at hany hempty
    simp only [Decider.clusterRebalanceGate, Decider.hasInactivePrimary,
      Decider.hasInactiveCopy, hany, hempty]
    rfl
  all_goals rfl

end Alike

/-! ### All deciders -/

/-- Nodes are looked for in the same way when the candidates and the answers are the same. -/
theorem findNode_congr {e : Copy} (hcandidates : candidates q.view = candidates p.view)
    (hanswer : ∀ node, Decider.allocation ds e node q false =
      Decider.allocation ds c node p false) :
    findNode ds e excluded q = findNode ds c excluded p := by
  have htry : ∀ (nodes : List DataNode) (seen : List NodeDecision),
      tryNodes ds e q seen nodes = tryNodes ds c p seen nodes := by
    intro nodes
    induction nodes with
    | nil => exact fun _ => rfl
    | cons node rest ih =>
      intro seen
      simp only [tryNodes, hanswer, ih]
  rw [findNode, findNode, hcandidates, htry]

/-- What a slot remembers does not matter. -/
theorem findNode_withInfo (hds : ds ⊆ Decider.standard) (c : Copy)
    (info : Option UnassignedInfo) :
    findNode ds { c with info } excluded p = findNode ds c excluded p := by
  refine findNode_congr rfl fun node => ?_
  rw [Decider.allocation, Decider.allocation]
  congr 1
  exact List.map_congr_left fun d hd => canAllocate_withInfo (hds hd) c info node p

namespace Alike

theorem byWeight_eq (h : p.Alike q) : byWeight q.view = byWeight p.view := by
  simp only [byWeight, View.liveNodes, View.allNodes, View.isLive, h.nodes, h.live]

theorem node?_eq (h : p.Alike q) (n : NodeId) : q.view.node? n = p.view.node? n := by
  rw [View.node?, View.node?, h.nodes]

theorem copyOn?_eq (h : p.Alike q) : q.view.copyOn? = p.view.copyOn? := by
  funext s n
  rw [View.copyOn?, View.copyOn?, h.nodes]

theorem slotCount_eq (h : p.Alike q) (s : ShardId) : q.view.slotCount s = p.view.slotCount s := by
  have hwaiting := (h.unassigned.filter fun c => c.shard == s).length_eq
  rw [View.slotCount, View.slotCount, View.copies, View.copies, h.holders, h.copyOn?_eq,
    View.unassignedOf, View.unassignedOf, hwaiting]

variable (hds : ds ⊆ Decider.standard)

include hds

theorem allocation_eq (h : p.Alike q) (explain : Bool) :
    Decider.allocation ds c node q explain = Decider.allocation ds c node p explain := by
  rw [Decider.allocation, Decider.allocation]
  congr 1
  exact List.map_congr_left fun d hd => (h.verdicts_eq (hds hd) c).1 node

theorem remaining_eq (h : p.Alike q) (explain : Bool) :
    Decider.remaining ds c node q explain = Decider.remaining ds c node p explain := by
  rw [Decider.remaining, Decider.remaining]
  congr 1
  exact List.map_congr_left fun d hd => (h.verdicts_eq (hds hd) c).2.1 node

theorem shardRebalance_eq (h : p.Alike q) :
    Decider.shardRebalance ds c q = Decider.shardRebalance ds c p := by
  rw [Decider.shardRebalance, Decider.shardRebalance]
  congr 1
  exact List.map_congr_left fun d hd => (h.verdicts_eq (hds hd) c).2.2

theorem clusterRebalance_eq (h : p.Alike q) :
    Decider.clusterRebalance ds q = Decider.clusterRebalance ds p := by
  rw [Decider.clusterRebalance, Decider.clusterRebalance]
  congr 1
  exact List.map_congr_left fun d hd => h.canRebalanceCluster_eq (hds hd)

theorem findNode_eq (h : p.Alike q) : findNode ds c excluded q = findNode ds c excluded p := by
  refine findNode_congr ?_ fun node => h.allocation_eq hds false
  rw [candidates, candidates, h.byWeight_eq]

theorem nextMove?_eq (h : p.Alike q) : nextMove? ds q = nextMove? ds p := by
  have hmovable : ∀ source target, movableCopy? ds q source target =
      movableCopy? ds p source target := by
    intro source target
    simp only [movableCopy?, h.shardRebalance_eq hds, h.allocation_eq hds]
  simp only [nextMove?, h.byWeight_eq, hmovable, exceedsSpread, spread, h.settings]

end Alike

/-- A copy that finds no node finds none on a pass that is alike. -/
theorem Stuck.alike (h : Stuck ds p c excluded) (hds : ds ⊆ Decider.standard)
    (halike : p.Alike q) : Stuck ds q c excluded := fun n => by
  rw [halike.findNode_eq hds]
  exact h n

end Pass

end ShardAllocation
