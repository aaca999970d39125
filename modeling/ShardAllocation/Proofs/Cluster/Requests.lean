/-
The recoveries that a pass asks for, and the copies that they are for.

Whatever a pass does before it comes to its end, the last request for a copy describes the copy
that initializes there in the next snapshot.  Earlier requests for the same node are left over
from copies that a command took away again: without such a command there are none.  And under
the standard deciders no request is in vain, not even one that is left over: its target is a
member with a copy to be filled, and its source has the data.

* `RoutingTable.sourceOf?`, `RoutingTable.Supplies` — where a copy is filled from, and which
  nodes have data;
* `reachable_requests` — the requests for one copy;
* `not_requested_once` — two requests for one copy, of which one is for another role;
* `standardReachable_requests` — every request can be carried out.
-/
import ShardAllocation.Proofs.Cluster.Layout
import ShardAllocation.Proofs.Cluster.Survival
import ShardAllocation.Proofs.Pass.Requests

namespace ShardAllocation

/-- The node that a copy is filled from: the source of its move, or the node of the active
primary of its shard. -/
def RoutingTable.sourceOf? (table : RoutingTable) (c : Copy) : Option NodeId :=
  if c.isRelocationTarget then c.peer
  else ((table.shard? c.shard).bind (·.primary?)).bind fun d => if d.isActive then d.node else none

/-- A copy of the shard on the node has a full set of data. -/
def RoutingTable.Supplies (table : RoutingTable) (shard : ShardId) (n : NodeId) : Prop :=
  ∃ c ∈ table.copies, c.shard = shard ∧ c.node = some n ∧ c.isActive = true

/-- The requests of a pass for the copy of a shard on a node. -/
def RerouteResult.requestsFor (r : RerouteResult) (shard : ShardId) (n : NodeId) :
    List Recovery :=
  r.recoveries.filter (·.isFor shard n)

namespace Passage

variable {a : Allocator} {s : ClusterState} {t : Trigger} {r : RerouteResult} {p m q : Pass}
variable {shard : ShardId} {n k : NodeId} {c : Copy} {w : Recovery}

/-! ### The requests and the last view -/

/-- A pass asks for those recoveries that are still to be made at its end, or for none. -/
theorem recoveries_cases (h : Passage a s t r p m q) : r.recoveries = [] ∨
    r.recoveries = q.view.requests.filter fun w =>
      (q.view.copyOn? w.shard w.target).any (·.isInitializing) := by
  rw [h.concluded, Allocator.conclude]
  split
  · exact .inr rfl
  · exact .inl rfl

/-- The requests for a copy that initializes are all those that the phases made for it. -/
theorem requestsFor_cases (h : Passage a s t r p m q) (shard : ShardId) (n : NodeId) :
    r.requestsFor shard n = [] ∨ r.requestsFor shard n = q.view.requestsFor shard n ∧
      ∃ c, q.view.copyOn? shard n = some c ∧ c.state = .initializing := by
  rcases h.recoveries_cases with hnone | heq
  · exact .inl (by rw [RerouteResult.requestsFor, hnone]; rfl)
  have hfilter : r.requestsFor shard n = (q.view.requestsFor shard n).filter fun _ =>
      (q.view.copyOn? shard n).any (·.isInitializing) := by
    rw [RerouteResult.requestsFor, heq, List.filter_comm, View.requestsFor]
    refine List.filter_congr fun w hw => ?_
    obtain ⟨rfl, rfl⟩ := Recovery.isFor_iff.mp (List.mem_filter.mp hw).2
    rfl
  rw [hfilter]
  cases hany : (q.view.copyOn? shard n).any (·.isInitializing) with
  | false => exact .inl (List.filter_eq_nil_iff.mpr fun _ _ => Bool.false_ne_true)
  | true =>
    obtain ⟨c, hc, hinit⟩ := (Option.any_eq_true _ _).mp hany
    exact .inr ⟨List.filter_eq_self.mpr fun _ _ => rfl, c, hc,
      by simpa [Copy.isInitializing] using hinit⟩

/-- A request is one that the phases made, for a copy that initializes. -/
theorem mem_requests (h : Passage a s t r p m q) (hw : w ∈ r.recoveries) :
    w ∈ q.view.requests ∧ ∃ c, q.view.copyOn? w.shard w.target = some c ∧
      c.state = .initializing := by
  have hfor : w ∈ r.requestsFor w.shard w.target :=
    List.mem_filter.mpr ⟨hw, Recovery.isFor_iff.mpr ⟨rfl, rfl⟩⟩
  rcases h.requestsFor_cases w.shard w.target with hnone | ⟨heq, hcopy⟩
  · rw [hnone] at hfor
    cases hfor
  · rw [heq] at hfor
    exact ⟨(List.mem_filter.mp hfor).1, hcopy⟩

/-- The next snapshot has the active primary of a shard where the last view has it. -/
theorem primaryNode?_last (h : Passage a s t r p m q) (shard : ShardId) :
    (((r.state.table.shard? shard).bind (·.primary?)).bind fun d =>
      if d.isActive then d.node else none) = q.view.primaryNode? shard := by
  have hq := h.sound_view
  refine Option.ext fun k => ?_
  rw [hq.primaryNode?_eq_some_iff, View.data, Layout.data_eq_some]
  constructor
  · intro hk
    obtain ⟨d, hprimary, hnode⟩ := Option.bind_eq_some_iff.mp hk
    obtain ⟨x, hx, hd⟩ := Option.bind_eq_some_iff.mp hprimary
    have hactive : d.isActive = true := by
      by_contra hno
      rw [if_neg hno] at hnode
      cases hnode
    rw [if_pos hactive] at hnode
    have hslot := (h.mem_entry_iff hx).mp (List.mem_of_find?_eq_some hd)
    rcases (View.mem_slots_iff hq.consistent.indexed).mp hslot with ⟨⟨j, hj⟩, -⟩ | ⟨hwait, -⟩
    · rw [(hq.consistent.own hj).2, Option.some_inj] at hnode
      exact ⟨d, hnode ▸ hj, hactive, List.find?_some (p := fun c : Copy => c.primary) hd⟩
    · -- a slot that waits has no data
      have hstate := hq.consistent.waiting d hwait
      rcases Copy.isActive_iff.mp hactive with hs | hs <;> rw [hstate] at hs <;> cases hs
  · rintro ⟨c, hc, hactive, hprim⟩
    obtain ⟨x, hx, hprimary⟩ :=
      h.exists_primary? hc hprim (Copy.isRelocationTarget_of_active hactive)
    rw [hx, Option.bind_some, hprimary, Option.bind_some, if_pos hactive]
    exact (hq.consistent.own hc).2

theorem sourceOf?_last (h : Passage a s t r p m q) (hc : q.view.copyOn? shard n = some c) :
    r.state.table.sourceOf? c = q.view.sourceOf? c := by
  have hq := h.sound_view
  obtain ⟨rfl, -⟩ := hq.consistent.own hc
  rw [RoutingTable.sourceOf?, View.sourceOf?, h.primaryNode?_last]

/-- The nodes with data of a shard in the next snapshot are those in the last view. -/
theorem supplies_iff (h : Passage a s t r p m q) :
    r.state.table.Supplies shard n ↔ ∃ primary, q.view.data shard n = some primary := by
  have hq := h.sound_view
  have hlayout := congrFun (h.layout_last shard) n
  constructor
  · rintro ⟨c, hc, rfl, hnode, hactive⟩
    have hget : q.view.copyOn? c.shard n = some c :=
      hlayout.trans (h.wellFormed.loadable.layout_eq_some.mpr ⟨c, hc, rfl, .inl ⟨hnode, rfl⟩⟩)
    exact ⟨c.primary, Layout.data_of_active hget hactive⟩
  · rintro ⟨primary, hdata⟩
    obtain ⟨c, hc, hactive, -⟩ := Layout.data_eq_some.mp hdata
    obtain ⟨d, hd, hshard, ⟨hnode, rfl⟩ | ⟨-, htarget⟩⟩ :=
      h.wellFormed.loadable.layout_eq_some.mp (hlayout.symm.trans hc)
    · exact ⟨c, hd, hshard, hnode, hactive⟩
    · rw [(Copy.relocationTarget?_eq_some_iff.mp htarget).2] at hactive
      cases hactive

/-! ### What holds at the end -/

/-- No recovery is asked for before the departed nodes are cleared. -/
theorem requests_eq_nil (h : Passage a s t r p m q) {l k : Pass}
    (hcourse : Pass.Course (Pass.Policy.ofOutcomes a.deciders t r.outcomes) p m l k q) :
    l.view.requests = [] := by
  have hruns := (hcourse.completes.mono fun _ _ => Or.inl).trans
    (hcourse.clears.mono fun _ _ => Or.inr)
  rw [Pass.Runs.requests_eq hruns, View.requests, h.loaded.transitions]
  rfl

theorem described_last (h : Passage a s t r p m q) (shard : ShardId) (n : NodeId) :
    q.view.Described shard n := by
  obtain ⟨l, k, hcourse⟩ := h.course
  exact hcourse.arranges.described (hcourse.sound h.sound).1 (h.requests_eq_nil hcourse) shard n

theorem requestedOnce_last (h : Passage a s t r p m q)
    (hcancels : ∀ k allow, Command.cancel shard k allow ∉ t.commands) (n : NodeId) :
    q.view.RequestedOnce shard n := by
  obtain ⟨l, k, hcourse⟩ := h.course
  refine hcourse.arranges.requestedOnce (hcourse.sound h.sound).1 (h.requests_eq_nil hcourse) ?_ n
  rintro ⟨j, allow, hmem⟩
  exact hcancels j allow hmem

theorem feeds_last (h : Passage a s t r p m q)
    (hds : Decider.replicaAfterPrimaryActive ∈ a.deciders) (hled : ∀ shard, p.view.Led shard) :
    ∀ w ∈ q.view.requests, q.view.Feeds w := by
  obtain ⟨l, k, hcourse⟩ := h.course
  refine hcourse.arranges.feeds (hcourse.sound h.sound).1 (h.requests_eq_nil hcourse) hds
    fun shard => ?_
  obtain ⟨hl, hfollowing⟩ := h.following_of_runs hds (hled shard) hcourse.clears.admits_of_clears
  exact hfollowing.led hl.view.consistent hcourse.allLive

end Passage

/-! ### One copy -/

/-- The last request for a copy describes it: its role, and the node that it is filled from.  If
no command ends what a copy of the shard is doing, there is no other request. -/
theorem reachable_requests {s : ClusterState} (h : Reachable s) {a : Allocator} {t : Trigger}
    {r : RerouteResult} (hr : a.reroute s t = .ok r) (shard : ShardId) (n : NodeId) :
    (∀ w, (r.requestsFor shard n).getLast? = some w →
      ∃ c, r.state.table.layout shard n = some c ∧ c.state = .initializing ∧
        w.primary = c.primary ∧ w.source = r.state.table.sourceOf? c) ∧
    ((∀ k allow, Command.cancel shard k allow ∉ t.commands) →
      (r.requestsFor shard n).length ≤ 1) := by
  obtain ⟨p, m, q, hpass⟩ := Allocator.exists_passage h.wellFormed hr
  rcases hpass.requestsFor_cases shard n with hnone | ⟨heq, c, hc, hinit⟩
  · rw [hnone]
    exact ⟨fun _ hlast => (nomatch hlast), fun _ => Nat.zero_le 1⟩
  rw [heq]
  refine ⟨fun w hlast => ⟨c, ?_, hinit, ?_⟩, fun hcancels => ?_⟩
  · exact (congrFun (hpass.layout_last shard) n).symm.trans hc
  · rw [hpass.sourceOf?_last hc]
    exact hpass.described_last shard n c w hc hinit hlast
  · exact (hpass.requestedOnce_last hcancels n).1

/-- A started primary on the only member, whose replica waits, and a second member that joins. -/
def joinedCluster : ClusterState :=
  (({ createdCluster with members := SortedMap.ofList [("a", none)] }.after
    { reason := "created", time := ⟨0, 0⟩ }).after
      { reason := "started", time := ⟨0, 0⟩, started := [⟨⟨"x", 0⟩, "a"⟩] }).withMembers twoMembers

theorem standardReachable_joinedCluster : StandardReachable joinedCluster := by
  have hindex : (ClusterState.initial.withMembers (SortedMap.ofList [("a", none)])).withIndex
      ⟨"x", 1, 1⟩ ⟨0, 0⟩ =
        .ok { createdCluster with members := SortedMap.ofList [("a", none)] } := rfl
  have hmembers := StandardReachable.initial.step
    (.members (SortedMap.ofList [("a", none)])) trivial
  have hcreated := hmembers.step (.create hindex) trivial
  exact ((hcreated.after _).after _).step (.members twoMembers) trivial

/-- The replica is placed on the second member, and the one request says where it is filled
from. -/
theorem reachable_requests_joined :
    ∃ r w, ({ settings := {} } : Allocator).reroute joinedCluster
        { reason := "joined", time := ⟨0, 0⟩ } = .ok r ∧
      r.requestsFor ⟨"x", 0⟩ "b" = [w] ∧ w.primary = false ∧ w.source = some "a" ∧
      ∃ c, r.state.table.layout ⟨"x", 0⟩ "b" = some c ∧ c.state = .initializing ∧
        w.primary = c.primary ∧ w.source = r.state.table.sourceOf? c := by
  have hrun : (({ settings := {} } : Allocator).reroute joinedCluster
      { reason := "joined", time := ⟨0, 0⟩ }).toOption.any
        (fun r => r.requestsFor ⟨"x", 0⟩ "b" = [⟨⟨"x", 0⟩, some "a", "b", false⟩]) = true := by
    decide +kernel
  obtain ⟨r, hr, hrequests⟩ := exists_ok_of_any hrun
  refine ⟨r, _, hr, hrequests, rfl, rfl, ?_⟩
  refine (reachable_requests standardReachable_joinedCluster.reachable hr ⟨"x", 0⟩ "b").1 _ ?_
  rw [hrequests]
  rfl

/-- The primary is sent to the second member and called back, and the replica is placed there:
the member is asked to fill both. -/
def rearranged : Trigger where
  reason := "commands"
  time := ⟨0, 0⟩
  commands := [.move ⟨"x", 0⟩ "a" "b", .cancel ⟨"x", 0⟩ "b" false, .allocate ⟨"x", 0⟩ "b" false]

/-- Two requests are for one copy, and the first of them takes it for the primary. -/
theorem not_requested_once : StandardReachable joinedCluster ∧
    ∃ r c, ({ settings := {} } : Allocator).reroute joinedCluster rearranged = .ok r ∧
      r.requestsFor ⟨"x", 0⟩ "b" =
        [⟨⟨"x", 0⟩, some "a", "b", true⟩, ⟨⟨"x", 0⟩, some "a", "b", false⟩] ∧
      r.state.table.layout ⟨"x", 0⟩ "b" = some c ∧ c.state = .initializing ∧
      c.primary = false := by
  refine ⟨standardReachable_joinedCluster, ?_⟩
  have hrun : (({ settings := {} } : Allocator).reroute joinedCluster rearranged).toOption.any
      (fun r => r.requestsFor ⟨"x", 0⟩ "b" =
          [⟨⟨"x", 0⟩, some "a", "b", true⟩, ⟨⟨"x", 0⟩, some "a", "b", false⟩] ∧
        (r.state.table.layout ⟨"x", 0⟩ "b").any (fun c =>
          c.state = .initializing ∧ c.primary = false) = true) = true := by
    decide +kernel
  obtain ⟨r, hr, hrequests, hlayout⟩ := exists_ok_of_any hrun
  obtain ⟨c, hc, hfacts⟩ := (Option.any_eq_true _ _).mp hlayout
  obtain ⟨hinit, hreplica⟩ := of_decide_eq_true hfacts
  exact ⟨r, c, hr, hrequests, hc, hinit, hreplica⟩

/-! ### Every request -/

/-- A request is for a copy that initializes on a member.  Its source is another member with data
of the shard; it has none only if the copy is a primary that does not move and no node has data
of the shard. -/
theorem standardReachable_requests {s : ClusterState} (h : StandardReachable s) {a : Allocator}
    {t : Trigger} {r : RerouteResult} (hds : a.deciders = Decider.standard)
    (hr : a.reroute s t = .ok r) {w : Recovery} (hw : w ∈ r.recoveries) :
    r.state.members.contains w.target = true ∧
    ∃ c, r.state.table.layout w.shard w.target = some c ∧ c.state = .initializing ∧
      (∀ k, w.source = some k → k ≠ w.target ∧ r.state.members.contains k = true ∧
        r.state.table.Supplies w.shard k) ∧
      (w.source = none → c.primary = true ∧ c.isRelocationTarget = false ∧
        ∀ k, ¬ r.state.table.Supplies w.shard k) := by
  have hs := h.reachable.wellFormed
  obtain ⟨p, m, q, hpass⟩ := Allocator.exists_passage hs hr
  have hmem : Decider.replicaAfterPrimaryActive ∈ a.deciders := by
    rw [hds]
    exact List.mem_cons_of_mem _ List.mem_cons_self
  have hled : ∀ shard, p.view.Led shard := fun shard => hpass.led_first hs fun x hx => h.led hx
  obtain ⟨hrequested, c, hc, hinit⟩ := hpass.mem_requests hw
  have hfeeds := hpass.feeds_last hmem hled w hrequested
  refine ⟨hpass.contains_of_copyOn? hc, c,
    (congrFun (hpass.layout_last w.shard) w.target).symm.trans hc, hinit, ?_, ?_⟩
  · intro k hk
    rcases hfeeds with ⟨j, hj, hne, primary, hdata⟩ | ⟨hnone, -⟩
    · obtain rfl : k = j := Option.some_inj.mp (hk.symm.trans hj)
      obtain ⟨d, hd, -⟩ := Layout.data_eq_some.mp hdata
      exact ⟨hne, hpass.contains_of_copyOn? hd, hpass.supplies_iff.mpr ⟨primary, hdata⟩⟩
    · rw [hnone] at hk
      cases hk
  · intro hnone
    rcases hfeeds with ⟨j, hj, -⟩ | ⟨-, hempty⟩
    · rw [hnone] at hj
      cases hj
    have hfresh := (hpass.led_last hmem (hled w.shard)).fresh_of_data_eq_none
      hpass.sound_last.view.consistent hempty hc hinit
    refine ⟨hfresh.1, hfresh.2, fun k hk => ?_⟩
    obtain ⟨primary, hdata⟩ := hpass.supplies_iff.mp hk
    rw [hempty k] at hdata
    cases hdata

/-- The request that is left over from the move of the primary names a node that has the data. -/
theorem standardReachable_requests_rearranged :
    ∃ r, ({ settings := {} } : Allocator).reroute joinedCluster rearranged = .ok r ∧
      r.recoveries = [⟨⟨"x", 0⟩, some "a", "b", true⟩, ⟨⟨"x", 0⟩, some "a", "b", false⟩] ∧
      r.state.members.contains "b" = true ∧ r.state.members.contains "a" = true ∧
      r.state.table.Supplies ⟨"x", 0⟩ "a" := by
  have hrun : (({ settings := {} } : Allocator).reroute joinedCluster rearranged).toOption.any
      (fun r => r.recoveries =
        [⟨⟨"x", 0⟩, some "a", "b", true⟩, ⟨⟨"x", 0⟩, some "a", "b", false⟩]) = true := by
    decide +kernel
  obtain ⟨r, hr, hrecoveries⟩ := exists_ok_of_any hrun
  have hmem : (⟨⟨"x", 0⟩, some "a", "b", true⟩ : Recovery) ∈ r.recoveries := by
    rw [hrecoveries]
    exact List.mem_cons_self
  obtain ⟨htarget, c, -, -, hsource, -⟩ :=
    standardReachable_requests standardReachable_joinedCluster rfl hr hmem
  obtain ⟨-, hmember, hsupplies⟩ := hsource "a" rfl
  exact ⟨r, hr, hrecoveries, htarget, hmember, hsupplies⟩

end ShardAllocation
