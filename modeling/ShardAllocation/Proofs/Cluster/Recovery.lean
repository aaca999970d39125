/-
The recoveries that a pass asks for.

A copy that a pass leaves initializing is filled only if somebody is told to fill it.  The
requests of a pass that changed something are exactly those for the copies that it placed or
sent on their way and that still initialize in the next snapshot.  A pass whose snapshot comes
out as it went in asks for nothing, although it may have failed a copy and placed it again on
the node where it was.

* `RerouteResult.Sends`, `RoutingTable.Fills` — what a pass sent to a node, and what is being
  filled there afterwards;
* `reachable_recoveries` — the requests of a pass;
* `not_recoveries_of_unchanged` — a copy that is placed again without a request.
-/
import ShardAllocation.Proofs.Cluster.Layout
import ShardAllocation.Proofs.Cluster.Run

namespace ShardAllocation

/-- The pass placed a copy of the shard on the node, or sent one there. -/
def RerouteResult.Sends (r : RerouteResult) (shard : ShardId) (n : NodeId) : Prop :=
  (∃ primary source, Transition.initialized shard n primary source ∈ r.transitions) ∨
    ∃ source primary, Transition.relocationStarted shard source n primary ∈ r.transitions

/-- A copy of the shard initializes on the node: it is stored there, or a copy moves there. -/
def RoutingTable.Fills (table : RoutingTable) (shard : ShardId) (n : NodeId) : Prop :=
  ∃ c ∈ table.copies, c.shard = shard ∧
    (c.state = .initializing ∧ c.node = some n ∨ c.state = .relocating ∧ c.peer = some n)

instance (table : RoutingTable) (shard : ShardId) (n : NodeId) :
    Decidable (table.Fills shard n) :=
  inferInstanceAs (Decidable (∃ c ∈ table.copies, _))

/-- A transition asks for a recovery exactly if it brings a copy to a node. -/
theorem exists_recovery?_iff {transitions : List Transition} {shard : ShardId} {n : NodeId} :
    (∃ t ∈ transitions, ∃ q, t.recovery? = some q ∧ q.shard = shard ∧ q.target = n) ↔
      (∃ primary source, Transition.initialized shard n primary source ∈ transitions) ∨
        ∃ source primary, Transition.relocationStarted shard source n primary ∈ transitions := by
  constructor
  · rintro ⟨t, ht, q, hq, hshard, htarget⟩
    cases t with
    | initialized s k primary source =>
      obtain rfl := Option.some_inj.mp hq
      exact .inl ⟨primary, source, hshard ▸ htarget ▸ ht⟩
    | relocationStarted s source k primary =>
      obtain rfl := Option.some_inj.mp hq
      exact .inr ⟨source, primary, hshard ▸ htarget ▸ ht⟩
    | _ => cases hq
  · rintro (⟨primary, source, ht⟩ | ⟨source, primary, ht⟩)
    · exact ⟨_, ht, _, rfl, rfl, rfl⟩
    · exact ⟨_, ht, _, rfl, rfl, rfl⟩

namespace View

variable {table : RoutingTable} {shard : ShardId} {n : NodeId}

theorem Loadable.fills_iff (h : Loadable table.copies) :
    table.Fills shard n ↔ (table.layout shard n).any (·.isInitializing) = true := by
  simp only [Option.any_eq_true, Copy.isInitializing, beq_iff_eq]
  constructor
  · rintro ⟨d, hd, hshard, ⟨hinit, hnode⟩ | ⟨hrel, hpeer⟩⟩
    · exact ⟨d, h.layout_eq_some.mpr ⟨d, hd, hshard, .inl ⟨hnode, rfl⟩⟩, hinit⟩
    · have htarget := Copy.relocationTarget?_eq_some_iff.mpr ⟨hrel, rfl⟩
      exact ⟨_, h.layout_eq_some.mpr ⟨d, hd, hshard, .inr ⟨hpeer, htarget⟩⟩, rfl⟩
  · rintro ⟨c, hc, hinit⟩
    obtain ⟨d, hd, hshard, ⟨hnode, rfl⟩ | ⟨hpeer, htarget⟩⟩ := h.layout_eq_some.mp hc
    · exact ⟨c, hd, hshard, .inl ⟨hinit, hnode⟩⟩
    · have hrel := (Copy.relocationTarget?_eq_some_iff.mp htarget).1
      exact ⟨d, hd, hshard, .inr ⟨hrel, hpeer⟩⟩

end View

namespace Passage

variable {a : Allocator} {s : ClusterState} {t : Trigger} {r : RerouteResult} {p m q : Pass}
variable {shard : ShardId} {n : NodeId}

/-- The requests of a pass that changed something. -/
theorem exists_recovery_iff (h : Passage a s t r p m q) (hchanged : r.changed = true) :
    (∃ w ∈ r.recoveries, w.shard = shard ∧ w.target = n) ↔
      r.Sends shard n ∧ r.state.table.Fills shard n := by
  have hrecoveries : r.recoveries = Allocator.pendingRecoveries q.view r.transitions := by
    have hconcluded := h.concluded
    rw [Allocator.conclude] at hconcluded
    split at hconcluded
    next => rw [hconcluded]
    next =>
      rw [hconcluded] at hchanged
      cases hchanged
  rw [RerouteResult.Sends, ← exists_recovery?_iff, h.wellFormed.loadable.fills_iff,
    ← h.layout_last, hrecoveries, Allocator.pendingRecoveries]
  simp only [List.mem_filter, List.mem_filterMap]
  constructor
  · rintro ⟨w, ⟨⟨u, hu, hw⟩, hfills⟩, rfl, rfl⟩
    exact ⟨⟨u, hu, w, hw, rfl, rfl⟩, hfills⟩
  · rintro ⟨⟨u, hu, w, hw, rfl, rfl⟩, hfills⟩
    exact ⟨w, ⟨⟨u, hu, hw⟩, hfills⟩, rfl, rfl⟩

end Passage

/-- A pass that changed something asks for exactly the recoveries of the copies that it sent
to a node and that still initialize there.  A pass that changed nothing asks for none. -/
theorem reachable_recoveries {s : ClusterState} (h : Reachable s) {a : Allocator} {t : Trigger}
    {r : RerouteResult} (hr : a.reroute s t = .ok r) :
    (r.changed = true ∧ ∀ shard n, (∃ w ∈ r.recoveries, w.shard = shard ∧ w.target = n) ↔
      r.Sends shard n ∧ r.state.table.Fills shard n) ∨
    (r.changed = false ∧ r.state = s ∧ r.recoveries = []) := by
  obtain ⟨p, m, q, hpass⟩ := Allocator.exists_passage h.wellFormed hr
  cases hchanged : r.changed with
  | true => exact .inl ⟨rfl, fun shard n => hpass.exists_recovery_iff hchanged⟩
  | false =>
    have hconcluded := hpass.concluded
    have hstate := hpass.state_last
    rw [Allocator.conclude] at hconcluded
    split at hconcluded
    next =>
      rw [hconcluded] at hchanged
      cases hchanged
    next =>
      rw [hconcluded]
      exact .inr ⟨rfl, hstate, rfl⟩

/-- One member with an index of one shard, whose primary initializes. -/
def fillingCluster : ClusterState :=
  ClusterState.after
    { version := 2
      members := SortedMap.ofList [("a", none)]
      metadata := SortedMap.ofList [("x", ⟨"x", 1, 0⟩)]
      table := SortedMap.ofList [("x", IndexTable.newUnassigned ⟨"x", 1, 0⟩ ⟨0, 0⟩)] }
    { reason := "created", time := ⟨0, 0⟩ }

theorem standardReachable_fillingCluster : StandardReachable fillingCluster := by
  have hindex : (ClusterState.initial.withMembers (SortedMap.ofList [("a", none)])).withIndex
      ⟨"x", 1, 0⟩ ⟨0, 0⟩ = .ok
        { version := 2
          members := SortedMap.ofList [("a", none)]
          metadata := SortedMap.ofList [("x", ⟨"x", 1, 0⟩)]
          table := SortedMap.ofList [("x", IndexTable.newUnassigned ⟨"x", 1, 0⟩ ⟨0, 0⟩)] } := rfl
  have hmembers := StandardReachable.initial.step
    (.members (SortedMap.ofList [("a", none)])) trivial
  exact (hmembers.step (.create hindex) trivial).after _

/-- The primary fails, its node is replaced, and the new node is asked to fill it. -/
theorem reachable_recoveries_replaced :
    ∃ r, ({ settings := {} } : Allocator).reroute
        (fillingCluster.withMembers (SortedMap.ofList [("b", none)]))
        { reason := "failed", time := ⟨0, 0⟩, failed := [⟨⟨"x", 0⟩, "a", "io"⟩] } = .ok r ∧
      r.Sends ⟨"x", 0⟩ "b" ∧ r.state.table.Fills ⟨"x", 0⟩ "b" ∧
      ∃ w ∈ r.recoveries, w.shard = ⟨"x", 0⟩ ∧ w.target = "b" := by
  have hreach := standardReachable_fillingCluster.step
    (.members (SortedMap.ofList [("b", none)])) trivial
  have hrun : (({ settings := {} } : Allocator).reroute
      (fillingCluster.withMembers (SortedMap.ofList [("b", none)]))
      { reason := "failed", time := ⟨0, 0⟩, failed := [⟨⟨"x", 0⟩, "a", "io"⟩] }).toOption.any
        (fun r => r.changed = true ∧ Transition.initialized ⟨"x", 0⟩ "b" true none ∈
          r.transitions ∧ r.state.table.Fills ⟨"x", 0⟩ "b") = true := by
    decide +kernel
  obtain ⟨r, hr, hchanged, hplaced, hfills⟩ := exists_ok_of_any hrun
  have hsends : r.Sends ⟨"x", 0⟩ "b" := .inl ⟨true, none, hplaced⟩
  refine ⟨r, hr, hsends, hfills, ?_⟩
  rcases reachable_recoveries hreach.reachable hr with ⟨-, hrequests⟩ | ⟨hsame, -⟩
  · exact (hrequests _ _).mpr ⟨hsends, hfills⟩
  · rw [hchanged] at hsame
    cases hsame

/-- The primary fails on the only member and is placed there again, and nobody is asked to
fill it. -/
theorem not_recoveries_of_unchanged : StandardReachable fillingCluster ∧
    ∃ r, ({ settings := {} } : Allocator).reroute fillingCluster
        { reason := "failed", time := ⟨0, 0⟩, failed := [⟨⟨"x", 0⟩, "a", "io"⟩] } = .ok r ∧
      r.Sends ⟨"x", 0⟩ "a" ∧ r.state.table.Fills ⟨"x", 0⟩ "a" ∧ r.recoveries = [] := by
  refine ⟨standardReachable_fillingCluster, ?_⟩
  have hrun : (({ settings := {} } : Allocator).reroute fillingCluster
      { reason := "failed", time := ⟨0, 0⟩, failed := [⟨⟨"x", 0⟩, "a", "io"⟩] }).toOption.any
        (fun r => Transition.initialized ⟨"x", 0⟩ "a" true none ∈ r.transitions ∧
          r.state.table.Fills ⟨"x", 0⟩ "a" ∧ r.recoveries = []) = true := by
    decide +kernel
  obtain ⟨r, hr, hplaced, hfills, hnone⟩ := exists_ok_of_any hrun
  exact ⟨r, hr, .inl ⟨true, none, hplaced⟩, hfills, hnone⟩

end ShardAllocation
