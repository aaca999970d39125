/-
The limits on recoveries hold over whole runs.

A pass that no command takes part in keeps to the limits, and what is declared from outside
adds slots that wait or takes copies away.  So in a cluster that starts empty, and whose
passes all have the same settings, no snapshot is ever above a limit: neither for the copies
that initialize in the cluster, nor on any node, member or not, for the fresh primaries, the
other copies that initialize and the copies that move away.

* `Passage.withinLimits` — a pass without commands keeps to the limits;
* `Step.mem_copies` — what a change from outside adds waits;
* `run_withinLimits` — the limits over whole runs.
-/
import ShardAllocation.Proofs.Cluster.Reload
import ShardAllocation.Proofs.Cluster.Run
import ShardAllocation.Proofs.Pass.Limits

namespace ShardAllocation

variable {s u : ClusterState} {es : List Event} {e : Event} {set : Settings}

/-- No number of the stored table is above its limit. -/
def ClusterState.WithinLimits (s : ClusterState) (set : Settings) : Prop :=
  ∀ quota : Quota, s.table.taken quota ≤ quota.limit set

/-- A pass is made with these settings, the standard deciders and no commands. -/
def Event.Unattended (set : Settings) : Event → Prop
  | pass a t _ => a.settings = set ∧ a.deciders = Decider.standard ∧ t.commands = []
  | _ => True

theorem Passage.withinLimits {a : Allocator} {t : Trigger} {r : RerouteResult} {p m q : Pass}
    (h : Passage a s t r p m q) (hs : s.WellFormed) (hlimits : s.WithinLimits a.settings)
    (hds : a.deciders = Decider.standard) (hcommands : t.commands = []) :
    r.state.WithinLimits a.settings := by
  have hbegin : p.WithinLimits := fun quota => by
    rw [h.settings, ← h.loaded.taken_eq hs.loadable quota]
    exact hlimits quota
  obtain ⟨l, k, hcourse⟩ := h.course
  have hthrottling : Decider.throttling ∈ a.deciders := by
    rw [hds]
    simp [Decider.standard]
  have hconcurrent : Decider.concurrentRecoveries ∈ a.deciders := by
    rw [hds]
    simp [Decider.standard]
  have hlast := hcourse.withinLimits h.sound hbegin hcommands hthrottling hconcurrent
  have hsettings : q.settings = a.settings :=
    h.admits.frame.2.1.trans (h.completes.frame.2.1.trans h.settings)
  -- the view that loads the next snapshot has the nodes of the last view
  obtain ⟨w, -, hw⟩ := View.ofTable_eq h.wellFormed.loadable r.state.members.keys
  have htaken : ∀ quota, w.taken quota = q.view.taken quota := fun quota => by
    rw [View.taken, View.taken, View.allNodes, View.allNodes, h.nodes_next hw]
  intro quota
  rw [RoutingTable.taken, hw.taken_eq h.wellFormed.loadable, htaken, ← hsettings]
  exact hlast quota

namespace Step

/-- What a change from outside adds waits. -/
theorem mem_copies (h : Step s e u) (hs : s.WellFormed) (he : ∀ a t r, e ≠ .pass a t r) {c : Copy}
    (hc : c ∈ u.table.copies) : c ∈ s.table.copies ∨ c.state = .unassigned := by
  obtain ⟨x, hx, hcx⟩ := (h.wellFormed hs).mem_copies_iff.mp hc
  rcases h.shard?_cases c.shard with hsame | ⟨y, wanted, since, hy, hresized⟩ | ⟨-, hnone⟩ |
    ⟨-, m, since, hnew⟩ | ⟨a, t, r, hpass, -⟩
  · exact .inl (hs.mem_copies_iff.mpr ⟨x, hsame ▸ hx, hcx⟩)
  · rw [hresized, Option.some_inj] at hx
    subst hx
    rcases ShardTable.mem_of_mem_withReplicas hcx with hold | rfl
    · exact .inl (hs.mem_copies_iff.mpr ⟨y, hy, hold⟩)
    · exact .inr rfl
  · rw [hnone] at hx
    cases hx
  · rw [hnew] at hx
    obtain ⟨shard, -, rfl⟩ := List.mem_map.mp (List.mem_of_getElem? hx)
    rcases List.mem_cons.mp hcx with rfl | hcx
    · exact .inr rfl
    · rw [List.eq_of_mem_replicate hcx]
      exact .inr rfl
  · exact absurd hpass (he a t r)

theorem withinLimits (h : Step s e u) (hs : s.WellFormed) (hlimits : s.WithinLimits set)
    (he : e.Unattended set) : u.WithinLimits set := by
  by_cases hpass : ∃ a t r, e = .pass a t r
  · obtain ⟨a, t, r, rfl⟩ := hpass
    cases h with
    | pass hr =>
      obtain ⟨p, m, q, hpass⟩ := Allocator.exists_passage hs hr
      obtain ⟨rfl, hds, hcommands⟩ := he
      exact hpass.withinLimits hs hlimits hds hcommands
  · have hout : ∀ a t r, e ≠ .pass a t r := fun a t r heq => hpass ⟨a, t, r, heq⟩
    intro quota
    exact Nat.le_trans ((h.wellFormed hs).loadable.countP_le
      (fun c hc => h.mem_copies hs hout hc) quota) (hlimits quota)

end Step

theorem Run.withinLimits (h : Run s es u) (hs : s.WellFormed) (hlimits : s.WithinLimits set)
    (hes : ∀ e ∈ es, e.Unattended set) : u.WithinLimits set := by
  have key := h.invariant (I := fun u => u.WellFormed ∧ u.WithinLimits set) ⟨hs, hlimits⟩ ?_
  · exact key.2
  · rintro v e w he ⟨hv, hbelow⟩ hstep
    exact ⟨hstep.wellFormed hv, hstep.withinLimits hv hbelow (hes e he)⟩

/-- In a cluster that starts empty and whose passes all have the same settings, the standard
deciders and no commands, the copies that initialize, the targets of moves among them, and the
copies that move away stay within the limits: in the cluster and on every node. -/
theorem run_withinLimits (h : Run .initial es s) (hes : ∀ e ∈ es, e.Unattended set) :
    let copies := s.table.copies.flatMap (·.withTarget)
    copies.countP (·.isInitializing) ≤ set.clusterConcurrentRecoveries ∧
    ∀ n,
      let onNode := copies.filter (·.node == some n)
      onNode.countP (·.isFreshPrimary) ≤ set.nodeInitialPrimariesRecoveries ∧
        onNode.countP (fun c => c.isInitializing && !c.isFreshPrimary) ≤
          set.nodeConcurrentRecoveries ∧
        onNode.countP (·.isRelocating) ≤ set.nodeConcurrentRecoveries := by
  have hinitial : ClusterState.initial.WithinLimits set := fun quota => Nat.zero_le _
  have hlimits := h.withinLimits ClusterState.wellFormed_initial hinitial hes
  intro copies
  refine ⟨hlimits .initializing, fun n => ?_⟩
  intro onNode
  have hcount : ∀ p : Copy → Bool, onNode.countP p =
      copies.countP fun c => p c && c.node == some n := fun p => List.countP_filter ..
  rw [hcount, hcount, hcount]
  exact ⟨hlimits (.freshPrimaries n), hlimits (.recoveries n), hlimits (.departures n)⟩

/-- One recovery at a time, in the cluster and on every node. -/
def oneByOne : Settings where
  nodeConcurrentRecoveries := 1
  nodeInitialPrimariesRecoveries := 1
  clusterConcurrentRecoveries := 1

/-- Two members with an index of two shards, whose primaries wait. -/
def pairCluster : ClusterState where
  version := 2
  members := twoMembers
  metadata := SortedMap.ofList [("x", ⟨"x", 2, 0⟩)]
  table := SortedMap.ofList [("x", IndexTable.newUnassigned ⟨"x", 2, 0⟩ ⟨0, 0⟩)]

/-- One primary is placed, and the other waits although a node is free. -/
theorem run_withinLimits_pair :
    ∃ r, ({ settings := oneByOne } : Allocator).reroute pairCluster
        { reason := "created", time := ⟨0, 0⟩ } = .ok r ∧
      r.state.table.copies.countP (·.isUnassigned) = 1 ∧
      (r.state.table.copies.flatMap (·.withTarget)).countP (·.isInitializing) = 1 ∧
      ∀ n, ((r.state.table.copies.flatMap (·.withTarget)).filter (·.node == some n)).countP
        (·.isFreshPrimary) ≤ 1 := by
  have hrun : (({ settings := oneByOne } : Allocator).reroute pairCluster
      { reason := "created", time := ⟨0, 0⟩ }).toOption.any (fun r =>
        r.state.table.copies.countP (·.isUnassigned) = 1 ∧
          0 < (r.state.table.copies.flatMap (·.withTarget)).countP (·.isInitializing)) = true := by
    decide +kernel
  obtain ⟨r, hr, hwaits, hplaced⟩ := exists_ok_of_any hrun
  have hindex : (ClusterState.initial.withMembers twoMembers).withIndex ⟨"x", 2, 0⟩ ⟨0, 0⟩ =
      .ok pairCluster := rfl
  have hevents := ((Run.refl.step (.members twoMembers)).step (.create hindex)).step (.pass hr)
  have hunattended : ∀ e ∈ [Event.members twoMembers, .create ⟨"x", 2, 0⟩ ⟨0, 0⟩,
      .pass { settings := oneByOne } { reason := "created", time := ⟨0, 0⟩ } r],
      e.Unattended oneByOne := by simp [Event.Unattended]
  obtain ⟨hcluster, hnodes⟩ := run_withinLimits hevents hunattended
  exact ⟨r, hr, hwaits, Nat.le_antisymm hcluster hplaced, fun n => (hnodes n).1⟩

end ShardAllocation
