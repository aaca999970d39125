/-
The view that loads what a pass left.

A pass freezes its last view, and the next pass loads the frozen table.  What is loaded is what
was frozen: the same copies on the same nodes and the same slots that wait, although the slots
of a shard now come with the primary first.  So the deciders cannot tell the two views apart,
and freezing once more gives the same table.

* `Passage.filter_copies` — the stored copies of a shard are its slots in the last view;
* `Passage.alike_next` — the next pass begins like this one ended;
* `Passage.freeze_next` — and would freeze the same table.
-/
import ShardAllocation.Proofs.Cluster.Order
import ShardAllocation.Proofs.Pass.Exhausted

namespace ShardAllocation

namespace Passage

variable {a : Allocator} {s : ClusterState} {t t' : Trigger} {r r' : RerouteResult}
variable {p m q p' m' q' : Pass}

/-- The stored copies of a shard are its slots in the last view. -/
theorem filter_copies (h : Passage a s t r p m q) (shard : ShardId) :
    r.state.table.copies.filter (·.shard == shard) = q.view.slots shard := by
  cases hknown : s.metadata.knows shard with
  | true =>
    rw [h.wellFormed.filter_copies, h.shard?_table hknown]
    rfl
  | false =>
    have hnone : r.state.table.copies.filter (·.shard == shard) = [] := by
      rw [h.wellFormed.filter_copies, h.wellFormed.shard?_eq_none (h.state_eq.2.1 ▸ hknown)]
      rfl
    -- a slot would be among these copies
    refine hnone.trans (List.eq_nil_iff_forall_not_mem.mpr fun c hc => ?_).symm
    obtain rfl := h.sound_view.shard_of_mem_slots hc
    exact List.filter_eq_nil_iff.mp hnone c (h.mem_copies_iff.mpr hc) (beq_self_eq_true c.shard)

/-- Every member is in the view, from the first view to the last. -/
theorem covers_first (h : Passage a s t r p m q) :
    p.view.Covers fun k => p.view.isLive k = true :=
  h.loaded.covers_isLive

theorem contains_nodes_last (h : Passage a s t r p m q) (n : NodeId) :
    q.view.nodes.contains n = s.members.contains n := by
  have hcovers := h.admits.covers (h.completes.covers h.covers_first)
  have hlive : q.view.isLive n = true ↔ s.members.contains n = true := by
    rw [h.isLive_last, h.isLive_iff]
  exact Bool.eq_iff_iff.mpr
    ⟨fun hn => hlive.mp (h.allLive n hn), fun hn => hcovers n (hlive.mpr hn)⟩

section Next

variable (h : Passage a s t r p m q)
variable {w : View} (hw : View.Loaded r.state.members.keys r.state.table.copies w)

include h hw

/-- What a pass left has no copy on departed nodes. -/
theorem nodesIn_next : w.NodesIn fun n => r.state.members.contains n = true := by
  intro n hn
  rcases hw.nodesIn n hn with hmember | ⟨c, hc, hnode⟩
  · exact SortedMap.mem_keys_iff.mp hmember
  · exact h.members_of_mem_nodes hc hnode

theorem copyOn?_next : w.copyOn? = q.view.copyOn? := by
  funext shard
  rw [hw.layout_eq h.wellFormed.loadable, h.layout_last]

theorem nodes_next : w.nodes = q.view.nodes := by
  refine View.nodes_eq (fun n => ?_) (h.copyOn?_next hw)
  rw [h.contains_nodes_last, ← h.state_eq.1]
  refine Bool.eq_iff_iff.mpr ⟨h.nodesIn_next hw n, fun hn => ?_⟩
  exact hw.covers n (SortedMap.mem_keys_iff.mpr hn)

theorem holders_next : w.holders = q.view.holders :=
  hw.consistent.indexed.holders_eq h.sound_view.consistent.indexed (h.copyOn?_next hw)

theorem unassignedOf_next (shard : ShardId) :
    w.unassignedOf shard = View.primariesFirst (q.view.unassignedOf shard) := by
  rw [View.unassignedOf, hw.unassigned, List.filter_comm, h.filter_copies,
    h.sound_view.filter_isUnassigned_slots]

theorem unassigned_next : w.unassigned.Perm q.view.unassigned := by
  refine List.perm_iff_count.mpr fun c => ?_
  -- a copy is counted among the slots of its shard
  have hcount : ∀ v : View, v.unassigned.count c = (v.unassignedOf c.shard).count c :=
    fun v => (List.count_filter (p := fun d : Copy => d.shard == c.shard)
      (beq_self_eq_true c.shard)).symm
  rw [hcount, hcount, h.unassignedOf_next hw]
  exact (View.primariesFirst_perm _).count_eq c

end Next

variable (h : Passage a s t r p m q) (h' : Passage a r.state t' r' p' m' q')

include h h'

theorem allLive_next : p'.AllLive := fun n hn =>
  h'.isLive_iff.mpr (h.nodesIn_next h'.loaded n hn)

/-- The next pass begins like this one ended. -/
theorem alike_next : q.Alike p' where
  nodes := h.nodes_next h'.loaded
  holders := h.holders_next h'.loaded
  live := by
    rw [h'.loaded.live, h.admits.frame.2.2.2, h.completes.frame.2.2.2, h.loaded.live, h.state_eq.1]
  unassigned := h.unassigned_next h'.loaded
  members := by rw [h'.state, h.state_last, h.state_eq.1]
  metadata := by rw [h'.state, h.state_last, h.state_eq.2.1]
  settings := by rw [h'.settings, h.admits.frame.2.1, h.completes.frame.2.1, h.settings]

/-- The next pass would freeze the same table. -/
theorem freeze_next : p'.view.freeze r.state.metadata = r.state.table :=
  ClusterState.Ordered.freeze_eq h.ordered h.wellFormed h'.loaded

end Passage

end ShardAllocation
