/-
What a batch leaves of the data of a shard.

A batch that brings no reports runs one pass, and this pass keeps the data of every shard that
has it on a member of the working snapshot.  So data is lost only while the batch is folded:
nodes leave and replicas are shed there without looking at one another, and the replicas that
are shed may be the ones whose nodes stay.  A primary is never shed, and a replica with a full
set of data is kept as long as there is room for all of these.

* `ClusterState.HoldsData` — a shard has a full set of data on a member;
* `Passage.holdsData_iff` — a pass without reports keeps it, and brings no new one;
* `Coordinator.Reached.holdsData_process` — what a batch does to it;
* `not_holdsData_of_shrunk` — the node of the primary leaves and the replica is shed, in one
  batch.
-/
import ShardAllocation.Proofs.Cluster.Survival
import ShardAllocation.Proofs.Coordinator.Batch

namespace ShardAllocation

/-- A member has a full set of the data of the shard. -/
def ClusterState.HoldsData (s : ClusterState) (shard : ShardId) : Prop :=
  ∃ c ∈ s.table.copies, c.shard = shard ∧ c.isActive = true ∧
    c.node.any s.members.contains = true

instance (s : ClusterState) (shard : ShardId) : Decidable (s.HoldsData shard) :=
  inferInstanceAs (Decidable (∃ c ∈ s.table.copies, _))

/-! ### One pass -/

namespace Passage

variable {a : Allocator} {s : ClusterState} {t : Trigger} {r : RerouteResult} {p m q : Pass}
variable {shard : ShardId}

theorem holdsData_first (h : Passage a s t r p m q) (hs : s.WellFormed) :
    s.HoldsData shard ↔
      Layout.HasActive (fun n _ => p.view.isLive n = true) (p.view.copyOn? shard) := by
  constructor
  · rintro ⟨c, hc, rfl, hactive, hmember⟩
    obtain ⟨n, hn, hmember⟩ := (Option.any_eq_true _ _).mp hmember
    exact ⟨n, c, h.copyOn?_of_mem hc hn, hactive, h.isLive_iff.mpr hmember⟩
  · rintro ⟨n, c, hc, hactive, hlive⟩
    obtain ⟨d, hd, hshard, -, -, rfl | htarget⟩ := h.stored_of_copyOn? hs hc
    · refine ⟨c, hd, hshard, hactive, ?_⟩
      rw [(h.sound.view.consistent.own hc).2, Option.any_some]
      exact h.isLive_iff.mp hlive
    · rw [Copy.isRelocationTarget_of_active hactive] at htarget
      cases htarget

theorem holdsData_last (h : Passage a s t r p m q) :
    r.state.HoldsData shard ↔
      Layout.HasActive (fun n _ => q.view.isLive n = true) (q.view.copyOn? shard) := by
  have hv := h.sound_last.view.consistent
  constructor
  · rintro ⟨c, hc, rfl, hactive, -⟩
    rcases (View.mem_slots_iff hv.indexed).mp (h.mem_copies_iff.mp hc) with
      ⟨⟨n, hn⟩, -⟩ | ⟨hwait, -⟩
    · exact ⟨n, c, hn, hactive, h.allLive.of_copyOn? hn⟩
    · -- a copy that waits has no data
      rcases Copy.isActive_iff.mp hactive with hstate | hstate <;>
        rw [hv.waiting c hwait] at hstate <;> cases hstate
  · rintro ⟨n, c, hc, hactive, -⟩
    obtain ⟨rfl, hnode⟩ := hv.own hc
    refine ⟨c, h.mem_copies_iff.mpr ?_, rfl, hactive, ?_⟩
    · exact (View.mem_slots_iff hv.indexed).mpr
        (.inl ⟨⟨n, hc⟩, Copy.isRelocationTarget_of_active hactive⟩)
    · rw [hnode, Option.any_some]
      exact h.contains_of_copyOn? hc

/-- A pass without reports about a shard keeps its data on the members, and where the members
have none there is none afterwards. -/
theorem holdsData_iff (h : Passage a s t r p m q) (hs : s.WellFormed)
    (hfailed : ∀ f ∈ t.failed, f.shard ≠ shard) (hstarted : ∀ f ∈ t.started, f.shard ≠ shard) :
    r.state.HoldsData shard ↔ s.HoldsData shard := by
  let P := Pass.Policy.ofOutcomes a.deciders t r.outcomes
  rw [h.holdsData_first hs, h.holdsData_last]
  constructor
  · -- every copy with data has had it from the first view on
    let I : Pass → Prop := fun u => u.Sound ∧ ∀ n c, u.view.copyOn? shard n = some c →
      c.isActive = true → ∃ d, p.view.copyOn? shard n = some d ∧ d.isActive = true
    have hstep : ∀ u ch, I u → ch.Fits u.state.metadata u.view →
        P.Completes u ch ∨ P.Admits u ch → I (ch.apply u) := by
      rintro u ch ⟨hu, hold⟩ hfit hguard
      refine ⟨hu.apply hfit, fun n c hc hactive => ?_⟩
      obtain ⟨d, hd, hactive⟩ := View.isActive_of_onView hu.view.consistent hfit
        (fun d k heq hshard => by
          subst heq
          exact hstarted _ (hguard.resolve_right id) hshard) hc hactive
      exact hold n d hd hactive
    have hmiddle : I m := h.completes.invariant ⟨h.sound, fun n c hc hactive => ⟨c, hc, hactive⟩⟩
      fun u ch hu hfit hguard => hstep u ch hu hfit (.inl hguard)
    have hlast : I q := h.admits.invariant hmiddle
      fun u ch hu hfit hguard => hstep u ch hu hfit (.inr hguard)
    rintro ⟨n, c, hc, hactive, hlive⟩
    obtain ⟨d, hd, hactive⟩ := hlast.2 n c hc hactive
    exact ⟨n, d, hd, hactive, h.isLive_last.symm.trans hlive⟩
  · -- no change takes the last data from the members
    have hreported : ¬P.Reported shard := by
      rintro ⟨f, hf, hshard⟩
      exact hfailed f hf hshard
    let I : Pass → Prop := fun u => u.Sound ∧
      Layout.HasActive (fun n _ => u.view.isLive n = true) (u.view.copyOn? shard)
    have hstep : ∀ u ch, I u → ch.Fits u.state.metadata u.view →
        P.Completes u ch ∨ P.Admits u ch → I (ch.apply u) := by
      rintro u ch ⟨hu, hdata⟩ hfit hguard
      exact ⟨hu.apply hfit, Pass.live_apply hu hfit hguard hreported
        (fun n hn => absurd rfl (hstarted _ hn)) hdata⟩
    intro hfirst
    have hmiddle : I m := h.completes.invariant ⟨h.sound, hfirst⟩
      fun u ch hu hfit hguard => hstep u ch hu hfit (.inl hguard)
    exact (h.admits.invariant hmiddle
      fun u ch hu hfit hguard => hstep u ch hu hfit (.inr hguard)).2

end Passage

/-! ### Folding a batch -/

namespace ClusterState

variable {s : ClusterState} {shard : ShardId} {c : Copy} {k : Nat}

/-- The copy is stored for the shard, which has at most `k` replicas with data. -/
def Stores (s : ClusterState) (shard : ShardId) (c : Copy) (k : Nat) : Prop :=
  ∃ x, s.table.shard? shard = some x ∧ c ∈ x.copies ∧ x.activeReplicas ≤ k

/-- A request keeps the primary of a shard, and every copy with data if it asks for no fewer
replicas than there are with data. -/
theorem Stores.onState (h : s.Stores shard c k) (hactive : c.isActive = true) (time : Instant)
    {r : Request} (hroom : c.primary = true ∨
      ∀ wanted, r = .setReplicas shard.index wanted → k ≤ wanted) :
    (r.onState time s).Stores shard c k := by
  obtain ⟨x, hx, hc, hcount⟩ := h
  rcases Request.shard?_onState hx time r with hsame | ⟨wanted, rfl, hresized⟩
  · exact ⟨x, hsame, hc, hcount⟩
  · refine ⟨_, hresized, ?_,
      Nat.le_trans (x.activeReplicas_withReplicas wanted time) hcount⟩
    rcases hroom with hprim | hroom
    · exact ShardTable.mem_withReplicas_of_primary hc hprim
    · exact ShardTable.mem_withReplicas_of_isActive
        (Nat.le_trans hcount (hroom wanted rfl)) hc hactive

theorem Stores.foldl (h : s.Stores shard c k) (hactive : c.isActive = true) (time : Instant)
    {batch : List Request} (hroom : c.primary = true ∨
      ∀ wanted, Request.setReplicas shard.index wanted ∈ batch → k ≤ wanted) :
    (batch.foldl (Request.onState time) s).Stores shard c k := by
  induction batch generalizing s with
  | nil => exact h
  | cons r batch ih =>
    have hfirst := h.onState (r := r) hactive time
      (hroom.imp_right fun hroom wanted heq => hroom wanted (heq ▸ List.mem_cons_self))
    exact ih hfirst (hroom.imp_right fun hroom wanted hmem =>
      hroom wanted (List.mem_cons_of_mem r hmem))

end ClusterState

/-! ### Coordinators -/

namespace Coordinator

variable {a : Allocator} {s : ClusterState} {c : Coordinator} {batch : List Request}

/-- After a batch without reports the members hold the data of a shard exactly if they do in the
folded snapshot.  A primary with data on a node that is a member after the batch is enough for
that, and so is a replica if no request of the batch asks for fewer replicas than there are
with data. -/
theorem Reached.holdsData_process (h : Reached a s c) (hs : s.WellFormed)
    (hset : a.settings.validate = .ok ()) (hds : Decider.sameShard ∈ a.deciders) (time : Instant)
    (hreports : ∀ r ∈ batch, r.started? = none ∧ r.failed? = none) (shard : ShardId) :
    ((c.process time batch).coordinator.state.HoldsData shard ↔
      (Gathering.ofBatch c.state time batch).working.HoldsData shard) ∧
    ∀ x d, c.state.table.shard? shard = some x → d ∈ x.copies → d.isActive = true →
      d.node.any (Request.membersAfter c.state.members batch).contains = true →
      (d.primary = true ∨ ∀ wanted, Request.setReplicas shard.index wanted ∈ batch →
        x.activeReplicas ≤ wanted) →
      (c.process time batch).coordinator.state.HoldsData shard := by
  obtain ⟨rfl, hc⟩ := h.spec hs
  have hfolded := Gathering.ofBatch_holds c.state time batch
  have hworking : (Gathering.ofBatch c.state time batch).working.WellFormed := by
    rw [hfolded.working]
    exact Request.wellFormed_foldl hc time batch
  obtain ⟨r, p, m, q, hr, hpass⟩ := Allocator.exists_reroute hworking hset hds
    (Gathering.ofBatch c.state time batch).trigger
  have hiff : (c.process time batch).coordinator.state.HoldsData shard ↔
      (Gathering.ofBatch c.state time batch).working.HoldsData shard := by
    rw [(process_of_ok hr).1]
    refine hpass.holdsData_iff hworking ?_ ?_
    · rw [hfolded.failed, List.filterMap_eq_nil_iff.mpr fun r hr => (hreports r hr).2]
      exact fun f hf => absurd hf List.not_mem_nil
    · rw [hfolded.started, List.filterMap_eq_nil_iff.mpr fun r hr => (hreports r hr).1]
      exact fun f hf => absurd hf List.not_mem_nil
  refine ⟨hiff, fun x d hx hd hactive hmember hroom => hiff.mpr ?_⟩
  -- the copy is still stored when the batch is folded, and its node is a member
  have hstores : c.state.Stores shard d x.activeReplicas := ⟨x, hx, hd, Nat.le_refl _⟩
  obtain ⟨y, hy, hdy, -⟩ := hstores.foldl hactive time hroom
  rw [← hfolded.working] at hy
  obtain ⟨hstored, hshard⟩ := (hworking.mem_entry_iff hy).mp hdy
  refine ⟨d, hstored, hshard, hactive, ?_⟩
  rw [hfolded.working, Request.members_foldl]
  exact hmember

/-- A coordinator that starts with the primary and the replica of a shard on two members. -/
def filled : Coordinator := Coordinator.start { settings := {} } filledCluster

/-- The node of the primary leaves, and the index keeps its replica. -/
theorem Reached.holdsData_process_filled :
    (filled.process ⟨1, 0⟩ [.nodesChanged (SortedMap.ofList [("b", none)]),
      .setReplicas "x" 1]).coordinator.state.HoldsData ⟨"x", 0⟩ := by
  have hcopy : (filled.state.table.shard? ⟨"x", 0⟩).any (fun x => x.activeReplicas ≤ 1 ∧
      ∃ d ∈ x.copies, d.isActive = true ∧ d.node = some "b") = true := by decide +kernel
  obtain ⟨x, hx, hfacts⟩ := (Option.any_eq_true _ _).mp hcopy
  obtain ⟨hcount, d, hd, hactive, hnode⟩ := of_decide_eq_true hfacts
  have hreached : Reached { settings := {} } filledCluster filled := .start
  refine (Reached.holdsData_process hreached standardReachable_filledCluster.reachable.wellFormed
    rfl List.mem_cons_self ⟨1, 0⟩ ?_ ⟨"x", 0⟩).2 x d hx hd hactive ?_ (.inr fun wanted hmem => ?_)
  · simp [Request.started?, Request.failed?]
  · have hmembers : (SortedMap.ofList [("b", (none : Option DiskUsage))]).contains "b" = true := by
      decide
    rw [hnode]
    exact hmembers
  · obtain rfl : wanted = 1 := by simpa using hmem
    exact hcount

/-- The node of the primary leaves and the replica on the member is shed.  In one batch the data
is gone; in two batches it is kept. -/
theorem not_holdsData_of_shrunk :
    filledCluster.WellFormed ∧
      (∃ d ∈ filled.state.table.copies, d.shard = ⟨"x", 0⟩ ∧ d.isActive = true ∧
        d.node = some "b") ∧
      ¬(filled.process ⟨1, 0⟩ [.nodesChanged (SortedMap.ofList [("b", none)]),
        .setReplicas "x" 0]).coordinator.state.HoldsData ⟨"x", 0⟩ ∧
      ((filled.process ⟨1, 0⟩ [.nodesChanged (SortedMap.ofList [("b", none)])]).coordinator.process
        ⟨2, 0⟩ [.setReplicas "x" 0]).coordinator.state.HoldsData ⟨"x", 0⟩ := by
  refine ⟨standardReachable_filledCluster.reachable.wellFormed, ?_, ?_, ?_⟩
  · decide +kernel
  · decide +kernel
  · decide +kernel

end Coordinator

end ShardAllocation
