/-
Recoveries that keep their source.

A replica that is being filled reads from the node of its primary.  When a pass leaves the
replica initializing on its node and did not place it there anew, the primary is still active on
the node where it was.  There is one exception: a report that the move of the primary itself is
complete takes the primary away, and the replicas that are filled from it stay as they are.

* `ShardTable.Recovers` — a replica is being filled on a node;
* `standardReachable_recovers` — its source after a pass;
* `not_recovers_of_moved` — the move of a primary that leaves a replica without its source.
-/
import ShardAllocation.Proofs.Cluster.Survival
import ShardAllocation.Proofs.Pass.Sourced

namespace ShardAllocation

/-- A replica is being filled on the node, and it is no target of a move. -/
def ShardTable.Recovers (x : ShardTable) (n : NodeId) : Prop :=
  ∃ c ∈ x.copies, c.primary = false ∧ c.state = .initializing ∧ c.node = some n

instance (x : ShardTable) (n : NodeId) : Decidable (x.Recovers n) :=
  inferInstanceAs (Decidable (∃ c ∈ x.copies, _))

/-- The primary is on the node and has a full set of data. -/
def ShardTable.ServedBy (x : ShardTable) (n : NodeId) : Prop :=
  ∃ c, x.primary? = some c ∧ c.isActive = true ∧ c.node = some n

namespace Passage

variable {a : Allocator} {s : ClusterState} {t : Trigger} {r : RerouteResult} {p m q : Pass}
variable {shard : ShardId} {x : ShardTable} {c : Copy} {k n : NodeId}

/-- A report completes no recovery on the node of an active primary, and takes the primary away
only if it says that its move is complete. -/
theorem primary_completes (h : Passage a s t r p m q)
    (hmove : ∀ target, c.peer = some target → ⟨shard, target⟩ ∉ t.started)
    (hactive : c.isActive = true) (hc : p.view.copyOn? shard k = some c) :
    m.view.copyOn? shard k = some c := by
  refine h.completes.invariant_of_sound h.sound (I := fun u => u.view.copyOn? shard k = some c)
    hc fun u ch _ hu hc hfit hguard => ?_
  have hv := hu.view.consistent
  by_cases hs : ch.shard? = some shard
  swap
  · exact (congrFun (View.copyOn?_onView_of_ne hv hfit hs) k).trans hc
  cases ch with
  | start d j =>
    obtain rfl : d.shard = shard := Option.some_inj.mp hs
    obtain ⟨hd, hinit⟩ := hfit
    have hk : k ≠ j := by
      rintro rfl
      obtain rfl : c = d := Option.some_inj.mp (hc.symm.trans hd)
      rcases Copy.isActive_iff.mp hactive with hstate | hstate <;> rw [hinit] at hstate <;>
        cases hstate
    have hp : d.peer ≠ some k := fun hp => by
      -- the report is about the target of the move of the primary
      have hback := (hv.linked _).peer_eq hc hd hp
      exact hmove j hback hguard
    show (u.view.settle j d).copyOn? d.shard k = some c
    rw [View.layout_settle]
    exact Layout.settle_eq_some.mpr (.inr ⟨hk, hp, hc⟩)
  | _ => exact absurd hguard id

/-- The replica on a node keeps its source through a pass, or is no longer being filled, or was
placed anew. -/
theorem sourced_last (h : Passage a s t r p m q)
    (hmove : ∀ target, c.peer = some target → ⟨shard, target⟩ ∉ t.started)
    (hprim : c.primary = true) (hactive : c.isActive = true)
    (hc : p.view.copyOn? shard k = some c) : q.Sourced shard k n := by
  have hm : m.Sourced shard k n := .inl ⟨c, h.primary_completes hmove hactive hc, hprim, hactive⟩
  exact h.admits.invariant_of_sound (h.completes.sound h.sound) hm
    fun _ _ _ hu hsourced hfit hguard => Pass.sourced_apply hu hfit hguard hsourced

/-- A replica that the next snapshot has on a node is in the last view there. -/
theorem copyOn?_of_recovers (h : Passage a s t r p m q)
    (hx : r.state.table.shard? shard = some x) (hrecovers : x.Recovers n) :
    ∃ c, q.view.copyOn? shard n = some c ∧ View.isRecoveringReplica c = true := by
  obtain ⟨c, hc, hprim, hinit, hnode⟩ := hrecovers
  have hv := h.sound_last.view.consistent
  have hslot := (h.mem_entry_iff hx).mp hc
  rcases (View.mem_slots_iff hv.indexed).mp hslot with ⟨⟨j, hj⟩, ht⟩ | ⟨hwait, -⟩
  · rw [(hv.own hj).2, Option.some_inj] at hnode
    exact ⟨c, hnode ▸ hj, View.isRecoveringReplica_iff.mpr ⟨hprim, hinit, ht⟩⟩
  · rw [hv.waiting c hwait] at hinit
    cases hinit

end Passage

/-- While a replica is being filled and is not placed anew, its primary stays active on the node
that it is filled from, unless a report completes the move of the primary. -/
theorem standardReachable_recovers {s : ClusterState} (h : StandardReachable s) {a : Allocator}
    {t : Trigger} {r : RerouteResult} (hr : a.reroute s t = .ok r) {shard : ShardId}
    {x y : ShardTable} {c : Copy} {k n : NodeId} (hx : s.table.shard? shard = some x)
    (hc : x.primary? = some c) (hk : c.node = some k) (hbefore : x.Recovers n)
    (hmove : ∀ target, c.peer = some target → ⟨shard, target⟩ ∉ t.started)
    (hy : r.state.table.shard? shard = some y) (hafter : y.Recovers n)
    (hanew : ∀ primary source, Transition.initialized shard n primary source ∉ r.transitions) :
    y.ServedBy k := by
  have hs := h.reachable.wellFormed
  obtain ⟨p, m, q, hpass⟩ := Allocator.exists_passage hs hr
  have hmem : c ∈ x.copies := List.mem_of_find?_eq_some hc
  have hprim : c.primary = true := List.find?_some (p := fun c : Copy => c.primary) hc
  -- the primary is active, since one of its replicas is on a node
  have hactive : c.isActive = true := by
    obtain ⟨d, hd, hreplica, hinit, -⟩ := hbefore
    rcases h.led hx with ⟨e, he, heprim, hactive⟩ | hwait
    · have hfound := (hs.wellFormed_entry hx).primary?_eq he heprim
      obtain rfl : c = e := Option.some_inj.mp (hc.symm.trans hfound)
      exact hactive
    · rw [hwait d hd hreplica] at hinit
      cases hinit
  obtain ⟨hstored, rfl⟩ := (hs.mem_entry_iff hx).mp hmem
  have hfirst := hpass.copyOn?_of_mem hstored hk
  obtain ⟨d, hd, hrecovering⟩ := hpass.copyOn?_of_recovers hy hafter
  rcases hpass.sourced_last (n := n) hmove hprim hactive hfirst with
    ⟨e, he, heprim, heactive⟩ | hidle | ⟨primary, source, hplaced⟩
  · obtain ⟨z, hz, hprimary⟩ :=
      hpass.exists_primary? he heprim (Copy.isRelocationTarget_of_active heactive)
    obtain rfl : y = z := Option.some_inj.mp (hy.symm.trans hz)
    exact ⟨e, hprimary, heactive, (hpass.sound_last.view.consistent.own he).2⟩
  · rw [hidle d hd] at hrecovering
    cases hrecovering
  · rw [← hpass.transitions_eq] at hplaced
    exact absurd hplaced (hanew primary source)

/-- The primary moves from one member to a third one while its replica is being filled. -/
def movingCluster : ClusterState :=
  (((createdCluster.after { reason := "created", time := ⟨0, 0⟩ }).after
    { reason := "started", time := ⟨0, 0⟩, started := [⟨⟨"x", 0⟩, "a"⟩] }).withMembers
      (SortedMap.ofList [("a", none), ("b", none), ("c", none)])).after
    { reason := "move", time := ⟨0, 0⟩, commands := [.move ⟨"x", 0⟩ "a" "c"] }

theorem standardReachable_movingCluster : StandardReachable movingCluster := by
  have hindex : (ClusterState.initial.withMembers twoMembers).withIndex ⟨"x", 1, 1⟩ ⟨0, 0⟩ =
      .ok createdCluster := rfl
  have hmembers := StandardReachable.initial.step (.members twoMembers) trivial
  have hcreated := hmembers.step (.create hindex) trivial
  exact (((hcreated.after _).after _).step (.members _) trivial).after _

/-- The replica is filled from the primary on its way, as long as the move is not complete. -/
theorem standardReachable_recovers_moving :
    ∃ r x y c, ({ settings := {} } : Allocator).reroute movingCluster
        { reason := "tick", time := ⟨0, 0⟩ } = .ok r ∧
      movingCluster.table.shard? ⟨"x", 0⟩ = some x ∧ x.primary? = some c ∧ c.node = some "a" ∧
      c.peer = some "c" ∧ x.Recovers "b" ∧ r.state.table.shard? ⟨"x", 0⟩ = some y ∧
      y.Recovers "b" ∧ y.ServedBy "a" := by
  have hfirst : (movingCluster.table.shard? ⟨"x", 0⟩).any (fun x => decide (x.Recovers "b") &&
      x.primary?.any (fun c => c.node = some "a" ∧ c.peer = some "c")) = true := by decide +kernel
  obtain ⟨x, hx, hfacts⟩ := (Option.any_eq_true _ _).mp hfirst
  obtain ⟨hbefore, hprimary⟩ := Bool.and_eq_true_iff.mp hfacts
  obtain ⟨c, hc, hplaces⟩ := (Option.any_eq_true _ _).mp hprimary
  obtain ⟨hk, hpeer⟩ := of_decide_eq_true hplaces
  have hrun : (({ settings := {} } : Allocator).reroute movingCluster
      { reason := "tick", time := ⟨0, 0⟩ }).toOption.any (fun r => r.transitions = [] ∧
        (r.state.table.shard? ⟨"x", 0⟩).any (fun y => y.Recovers "b") = true) = true := by
    decide +kernel
  obtain ⟨r, hr, hlog, hlast⟩ := exists_ok_of_any hrun
  obtain ⟨y, hy, hafter⟩ := (Option.any_eq_true _ _).mp hlast
  have hafter := of_decide_eq_true hafter
  have hserved := standardReachable_recovers standardReachable_movingCluster hr hx hc hk
    (of_decide_eq_true hbefore) (fun _ _ => List.not_mem_nil) hy hafter (by simp [hlog])
  exact ⟨r, x, y, c, hr, hx, hc, hk, hpeer, of_decide_eq_true hbefore, hy, hafter, hserved⟩

/-- The move is complete: the replica is still being filled and was not placed anew, and its
primary is no longer where it was. -/
theorem not_recovers_of_moved : StandardReachable movingCluster ∧
    ∃ r x y c d, ({ settings := {} } : Allocator).reroute movingCluster
        { reason := "started", time := ⟨0, 0⟩, started := [⟨⟨"x", 0⟩, "c"⟩] } = .ok r ∧
      movingCluster.table.shard? ⟨"x", 0⟩ = some x ∧ x.primary? = some c ∧ c.node = some "a" ∧
      x.Recovers "b" ∧ r.state.table.shard? ⟨"x", 0⟩ = some y ∧ y.Recovers "b" ∧
      r.transitions = [.started ⟨"x", 0⟩ "c"] ∧ y.primary? = some d ∧ d.node = some "c" ∧
      ¬y.ServedBy "a" := by
  have hfirst : (movingCluster.table.shard? ⟨"x", 0⟩).any (fun x => decide (x.Recovers "b") &&
      x.primary?.any (fun c => c.node = some "a")) = true := by decide +kernel
  obtain ⟨x, hx, hfacts⟩ := (Option.any_eq_true _ _).mp hfirst
  obtain ⟨hbefore, hprimary⟩ := Bool.and_eq_true_iff.mp hfacts
  obtain ⟨c, hc, hk⟩ := (Option.any_eq_true _ _).mp hprimary
  have hrun : (({ settings := {} } : Allocator).reroute movingCluster
      { reason := "started", time := ⟨0, 0⟩, started := [⟨⟨"x", 0⟩, "c"⟩] }).toOption.any
        (fun r => r.transitions = [.started ⟨"x", 0⟩ "c"] ∧
          (r.state.table.shard? ⟨"x", 0⟩).any (fun y => decide (y.Recovers "b") &&
            y.primary?.any (fun d => d.node = some "c")) = true) = true := by decide +kernel
  obtain ⟨r, hr, hlog, hlast⟩ := exists_ok_of_any hrun
  obtain ⟨y, hy, hfacts⟩ := (Option.any_eq_true _ _).mp hlast
  obtain ⟨hafter, hprimary⟩ := Bool.and_eq_true_iff.mp hfacts
  obtain ⟨d, hd, hplace⟩ := (Option.any_eq_true _ _).mp hprimary
  have hplace : d.node = some "c" := of_decide_eq_true hplace
  refine ⟨standardReachable_movingCluster, r, x, y, c, d, hr, hx, hc, of_decide_eq_true hk,
    of_decide_eq_true hbefore, hy, of_decide_eq_true hafter, hlog, hd, hplace, ?_⟩
  rintro ⟨e, he, -, hnode⟩
  obtain rfl : d = e := Option.some_inj.mp (hd.symm.trans he)
  rw [hplace] at hnode
  simp at hnode

end ShardAllocation
