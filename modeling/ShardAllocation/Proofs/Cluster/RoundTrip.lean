/-
The routing table and the working view.

They are two forms of the same routing.  The table of a reachable snapshot can always be
loaded, members or not the nodes of its copies; the view says the same as the table about
every shard and every node, and freezing it gives the table back, in the same order of copies.
The other way round, the table that a pass has frozen loads into the view that the pass ended
with: the targets of moves, which are not stored, come back on their nodes.

* `reachable_roundTrip` — both directions.
-/
import ShardAllocation.Proofs.Cluster.RecoverySource
import ShardAllocation.Proofs.Cluster.Reload

namespace ShardAllocation

/-- The nodes that hold something are those with the copy of some shard. -/
theorem View.exists_mem_copies_iff {v : View} {n : NodeId} :
    (∃ node, v.node? n = some node ∧ ∃ c, c ∈ node.copies) ↔ ∃ s c, v.copyOn? s n = some c := by
  constructor
  · rintro ⟨node, hnode, c, hc⟩
    rw [View.copies_of_node? hnode] at hc
    obtain ⟨s, hs⟩ := SortedMap.mem_values_iff.mp hc
    exact ⟨s, c, (View.copyOn?_eq v s n).trans hs⟩
  · rintro ⟨s, c, hc⟩
    obtain ⟨held, hheld, hget⟩ := Option.bind_eq_some_iff.mp hc
    exact ⟨⟨n, held⟩, by rw [View.node?, hheld, Option.map_some], c,
      SortedMap.mem_values_iff.mpr ⟨s, hget⟩⟩

/-- The table of a reachable snapshot loads, the view agrees with it on every shard and every
node, and freezes into it.  And the table that a pass leaves loads into the view that the pass
ended with, up to the order of the slots that wait. -/
theorem reachable_roundTrip {s : ClusterState} (h : Reachable s) :
    (∃ v, View.ofTable s.members.keys s.table = .ok v ∧ v.freeze s.metadata = s.table ∧
      (∀ shard n, (s.table.shard? shard).bind (·.copyOn? n) = v.copyOn? shard n) ∧
      ∀ n, (∃ node, v.node? n = some node ∧ ∃ c, c ∈ node.copies) ↔
        n ∈ s.table.referencedNodes) ∧
    ∀ (a : Allocator) (t : Trigger) (r : RerouteResult), a.reroute s t = .ok r →
      ∃ p q w, Pass.begin s a.settings t.time = .ok p ∧
        Allocator.phases a.deciders t p = .ok r.outcomes q ∧
        View.ofTable r.state.members.keys r.state.table = .ok w ∧ w.nodes = q.view.nodes ∧
        w.holders = q.view.holders ∧ w.unassigned.Perm q.view.unassigned := by
  have hs := h.wellFormed
  constructor
  · obtain ⟨v, hv, hloaded⟩ := View.ofTable_eq hs.loadable s.members.keys
    refine ⟨v, hv, ClusterState.Ordered.freeze_eq h.ordered hs hloaded, fun shard n => ?_,
      fun n => ?_⟩
    · rw [hloaded.layout_eq hs.loadable, hs.layout_eq]
    · rw [View.exists_mem_copies_iff, hloaded.exists_copyOn?_iff hs.loadable,
        RoutingTable.mem_referencedNodes_iff]
  · intro a t r hr
    obtain ⟨p, m, q, hpass⟩ := Allocator.exists_passage hs hr
    obtain ⟨w, hw, hloaded⟩ := View.ofTable_eq hpass.wellFormed.loadable r.state.members.keys
    exact ⟨p, q, w, hpass.begins, hpass.phases, hw, hpass.nodes_next hloaded,
      hpass.holders_next hloaded, hpass.unassigned_next hloaded⟩

/-- The target of a move left while the primary was on its way. -/
def abandonedCluster : ClusterState := movingCluster.withMembers twoMembers

/-- The view has the copy on the departed node, which the table does not store.  The view that
loads what a further pass leaves has no such node, like the one that the pass ended with. -/
theorem reachable_roundTrip_abandoned :
    ∃ v r p q w, View.ofTable abandonedCluster.members.keys abandonedCluster.table = .ok v ∧
      v.freeze abandonedCluster.metadata = abandonedCluster.table ∧
      (abandonedCluster.table.shard? ⟨"x", 0⟩).bind (·.copyOn? "c") = v.copyOn? ⟨"x", 0⟩ "c" ∧
      "c" ∈ abandonedCluster.table.referencedNodes ∧
      "c" ∉ abandonedCluster.members.keys ∧
      ({ settings := {} } : Allocator).reroute abandonedCluster
        { reason := "left", time := ⟨1, 0⟩ } = .ok r ∧
      Pass.begin abandonedCluster {} ⟨1, 0⟩ = .ok p ∧
      Allocator.phases Decider.standard { reason := "left", time := ⟨1, 0⟩ } p =
        .ok r.outcomes q ∧
      View.ofTable r.state.members.keys r.state.table = .ok w ∧ w.nodes = q.view.nodes ∧
      "c" ∉ w.nodes.keys := by
  have hreach := (standardReachable_movingCluster.step (.members twoMembers) trivial).reachable
  obtain ⟨⟨v, hv, hfreeze, hcopies, -⟩, hpasses⟩ :=
    reachable_roundTrip (s := abandonedCluster) hreach
  have hrun : (({ settings := {} } : Allocator).reroute abandonedCluster
      { reason := "left", time := ⟨1, 0⟩ }).toOption.any (fun r =>
        (View.ofTable r.state.members.keys r.state.table).toOption.any (fun w =>
          decide ("c" ∉ w.nodes.keys)) = true) = true := by decide +kernel
  obtain ⟨r, hr, hloads⟩ := exists_ok_of_any hrun
  obtain ⟨p, q, w, hbegin, hphases, hw, hsame, -, -⟩ := hpasses _ _ r hr
  have hgone : "c" ∉ w.nodes.keys := by
    rw [hw] at hloads
    exact of_decide_eq_true hloads
  exact ⟨v, r, p, q, w, hv, hfreeze, hcopies ⟨"x", 0⟩ "c", by decide +kernel, by decide +kernel,
    hr, hbegin, hphases, hw, hsame, hgone⟩

end ShardAllocation
