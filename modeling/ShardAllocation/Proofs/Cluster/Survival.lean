/-
Data that survives.

Under the standard deciders a shard has replicas on nodes only beside an active primary, in
every snapshot.  So a pass over such a snapshot keeps the data of a shard that has it on a
member: whatever nodes left and whatever was commanded, the primary is active afterwards.

* `ShardTable.Led` — the replicas of a stored shard;
* `StandardReachable.led` — every snapshot has its replicas beside an active primary;
* `standardReachable_reroute` — a pass keeps an active primary.
-/
import ShardAllocation.Proofs.Cluster.Run
import ShardAllocation.Proofs.Pass.Survival

namespace ShardAllocation

namespace ShardTable

variable {x : ShardTable}

/-- The primary has a full set of data, or all replicas wait. -/
def Led (x : ShardTable) : Prop :=
  (∃ c ∈ x.copies, c.primary = true ∧ c.isActive = true) ∨
    ∀ c ∈ x.copies, c.primary = false → c.state = .unassigned

theorem Led.withReplicas (h : x.Led) (wanted : Nat) (since : Instant) :
    (x.withReplicas wanted since).Led := by
  refine h.imp ?_ ?_
  · rintro ⟨c, hc, hprim, hactive⟩
    exact ⟨c, mem_withReplicas_of_primary hc hprim, hprim, hactive⟩
  · intro hwait c hc hprim
    rcases mem_of_mem_withReplicas hc with hc | rfl
    · exact hwait c hc hprim
    · rfl

theorem led_newUnassigned {m : IndexMetadata} {since : Instant}
    (hx : x ∈ (IndexTable.newUnassigned m since).shards) : x.Led := by
  obtain ⟨s, -, rfl⟩ := List.mem_map.mp hx
  refine .inr fun c hc _ => ?_
  rcases List.mem_cons.mp hc with rfl | hc
  · rfl
  · rw [List.eq_of_mem_replicate hc]
    rfl

end ShardTable

namespace Passage

variable {a : Allocator} {s : ClusterState} {t : Trigger} {r : RerouteResult} {p m q : Pass}
variable {shard : ShardId}

/-! ### Replicas beside an active primary -/

theorem led_first (h : Passage a s t r p m q) (hs : s.WellFormed)
    (hled : ∀ x, s.table.shard? shard = some x → x.Led) : p.view.Led shard := by
  cases hx : s.table.shard? shard with
  | none =>
    refine .inr fun n c hc => ?_
    obtain ⟨d, hd, rfl, -⟩ := h.stored_of_copyOn? hs hc
    obtain ⟨x, hget, -⟩ := hs.mem_copies_iff.mp hd
    rw [hx] at hget
    cases hget
  | some x =>
    rcases hled x hx with ⟨c, hc, hprim, hactive⟩ | hwait
    · obtain ⟨hc, rfl⟩ := (hs.mem_entry_iff hx).mp hc
      have hstate : c.state ≠ .unassigned := by
        rcases Copy.isActive_iff.mp hactive with hstate | hstate <;> rw [hstate] <;> decide
      obtain ⟨n, hn⟩ := (hs.loadable.stored c hc).exists_node hstate
      exact .inl ⟨n, c, h.copyOn?_of_mem hc hn, hactive, hprim⟩
    · refine .inr fun n c hc => ?_
      obtain ⟨d, hd, hshard, hstate, hprim, -⟩ := h.stored_of_copyOn? hs hc
      by_contra hreplica
      rw [hprim, Bool.not_eq_true] at hreplica
      exact hstate (hwait d ((hs.mem_entry_iff hx).mpr ⟨hd, hshard⟩) hreplica)

/-- Once recoveries are completed, replicas are beside an active primary or on nodes that left. -/
theorem following_of_runs (h : Passage a s t r p m q)
    (hds : Decider.replicaAfterPrimaryActive ∈ a.deciders) (hled : p.view.Led shard) {u : Pass}
    (hruns : Pass.Runs (Pass.Policy.ofOutcomes a.deciders t r.outcomes).Admits m u) :
    u.Sound ∧ u.view.Following shard := by
  have hm := h.completes.sound h.sound
  have hled := h.completes.invariant_of_sound h.sound (I := fun r => r.view.Led shard) hled
    fun _ _ _ hr hled hfit hguard => Pass.led_apply_start hr hfit hguard hled
  exact ⟨hruns.sound hm, hruns.invariant_of_sound hm (I := fun r => r.view.Following shard)
    hled.following fun _ _ _ hr hfollowing hfit hguard =>
      Pass.following_apply hr hfit hguard hds hfollowing⟩

theorem led_last (h : Passage a s t r p m q)
    (hds : Decider.replicaAfterPrimaryActive ∈ a.deciders) (hled : p.view.Led shard) :
    q.view.Led shard := by
  obtain ⟨hq, hfollowing⟩ := h.following_of_runs hds hled h.admits
  exact hfollowing.led hq.view.consistent h.allLive

theorem led_frozen (h : Passage a s t r p m q) (hled : q.view.Led shard) {x : ShardTable}
    (hx : r.state.table.shard? shard = some x) : x.Led := by
  have hv := h.sound_last.view.consistent
  refine hled.imp ?_ ?_
  · rintro ⟨n, c, hc, hactive, hprim⟩
    refine ⟨c, (h.mem_entry_iff hx).mpr ?_, hprim, hactive⟩
    exact (View.mem_slots_iff hv.indexed).mpr
      (.inl ⟨⟨n, hc⟩, Copy.isRelocationTarget_of_active hactive⟩)
  · intro hall c hc hprim
    rcases (View.mem_slots_iff hv.indexed).mp ((h.mem_entry_iff hx).mp hc) with
      ⟨⟨n, hn⟩, -⟩ | ⟨hwait, -⟩
    · rw [hall n c hn] at hprim
      cases hprim
    · exact hv.waiting c hwait

/-- The data of a shard on a member survives the pass. -/
theorem survives_last (h : Passage a s t r p m q) (hfailed : ∀ f ∈ t.failed, f.shard ≠ shard)
    (hstarted : ∀ f ∈ t.started, f.shard = shard → s.members.contains f.node = true)
    (hfirst : p.view.Survives shard) : q.view.Survives shard := by
  let P := Pass.Policy.ofOutcomes a.deciders t r.outcomes
  have hreported : ¬P.Reported shard := by
    rintro ⟨f, hf, hshard⟩
    exact hfailed f hf hshard
  let I : Pass → Prop := fun u => u.Sound ∧ u.view.live = p.view.live ∧ u.view.Survives shard
  have hstep : ∀ u ch, I u → ch.Fits u.state.metadata u.view →
      P.Completes u ch ∨ P.Admits u ch → I (ch.apply u) := by
    rintro u ch ⟨hu, hlive, hsurvives⟩ hfit hguard
    refine ⟨hu.apply hfit, (View.live_onView u.view ch).trans hlive,
      Pass.survives_apply hu hfit hguard hreported (fun n hn => ?_) hsurvives⟩
    rw [View.isLive, hlive]
    exact h.isLive_iff.mpr (hstarted _ hn rfl)
  have hmiddle : I m := h.completes.invariant ⟨h.sound, rfl, hfirst⟩
    fun u ch hu hfit hguard => hstep u ch hu hfit (.inl hguard)
  have hlast : I q := h.admits.invariant hmiddle
    fun u ch hu hfit hguard => hstep u ch hu hfit (.inr hguard)
  exact hlast.2.2

end Passage

/-! ### Snapshots under the standard deciders -/

theorem StandardReachable.led {s : ClusterState} (h : StandardReachable s) {shard : ShardId}
    {x : ShardTable} (hx : s.table.shard? shard = some x) :
    x.Led := by
  obtain ⟨es, hrun, hstandard⟩ := h
  have key := hrun.invariant (I := fun u => u.WellFormed ∧
    ∀ x, u.table.shard? shard = some x → x.Led)
    ⟨ClusterState.wellFormed_initial, fun x hx => by cases hx⟩ ?_
  · exact key.2 x hx
  rintro u e v hmem ⟨hu, hled⟩ hstep
  refine ⟨hstep.wellFormed hu, fun x hx => ?_⟩
  rcases hstep.shard?_cases shard with hsame | ⟨y, wanted, since, hy, hresized⟩ | ⟨-, hnone⟩ |
    ⟨-, m, since, hnew⟩ | ⟨a, t, r, rfl, hr, rfl⟩
  · exact hled x (hsame ▸ hx)
  · rw [hresized, Option.some_inj] at hx
    exact hx ▸ (hled y hy).withReplicas wanted since
  · rw [hnone] at hx
    cases hx
  · exact ShardTable.led_newUnassigned (List.mem_of_getElem? (hnew.symm.trans hx))
  · obtain ⟨p, m, q, hpass⟩ := Allocator.exists_passage hu hr
    have hds : Decider.replicaAfterPrimaryActive ∈ a.deciders := by
      rw [hstandard _ hmem]
      exact List.mem_cons_of_mem _ List.mem_cons_self
    exact hpass.led_frozen (hpass.led_last hds (hpass.led_first hu hled)) hx

/-! ### A pass keeps an active primary -/

/-- If a shard has a full set of data on a member, and no report says that a copy of it
failed or was started on a node that is no member, its primary is active and on a member
after a pass. -/
theorem standardReachable_reroute {s : ClusterState} (h : StandardReachable s) {a : Allocator}
    (hset : a.settings.validate = .ok ()) (hds : Decider.sameShard ∈ a.deciders) {t : Trigger}
    {shard : ShardId} (hfailed : ∀ f ∈ t.failed, f.shard ≠ shard)
    (hstarted : ∀ f ∈ t.started, f.shard = shard → s.members.contains f.node = true)
    (hactive : ∃ c ∈ s.table.copies, c.shard = shard ∧ c.isActive = true ∧
      c.node.any s.members.contains = true) :
    ∃ r x c, a.reroute s t = .ok r ∧ r.state.table.shard? shard = some x ∧
      x.primary? = some c ∧ c.isActive = true ∧ c.node.any r.state.members.contains = true := by
  have hs := h.reachable.wellFormed
  rcases Allocator.reroute_cases hs hset t with ⟨r, p, m, q, hr, hpass⟩ | ⟨hno, -⟩
  swap
  · exact absurd hds hno
  -- the first view has the data of the shard on a member
  have hfirst : p.view.Survives shard := by
    obtain ⟨c, hc, rfl, hfull, hmember⟩ := hactive
    refine (hpass.led_first hs fun x hx => h.led hx).survives ?_
    obtain ⟨n, hn, hmember⟩ := (Option.any_eq_true _ _).mp hmember
    exact ⟨n, c, hpass.copyOn?_of_mem hc hn, hfull, hpass.isLive_iff.mpr hmember⟩
  obtain ⟨⟨n, c, hc, hfull, hprim⟩, -⟩ := hpass.survives_last hfailed hstarted hfirst
  obtain ⟨x, hx, hprimary⟩ :=
    hpass.exists_primary? hc hprim (Copy.isRelocationTarget_of_active hfull)
  refine ⟨r, x, c, hr, hx, hprimary, hfull, ?_⟩
  rw [(hpass.sound_last.view.consistent.own hc).2, Option.any_some]
  exact hpass.contains_of_copyOn? hc

/-- The cluster after the node of the primary left. -/
def departedCluster : ClusterState := filledCluster.withMembers (SortedMap.ofList [("b", none)])

/-- The replica takes over. -/
theorem standardReachable_reroute_departed :
    ∃ r x c, ({ settings := {} } : Allocator).reroute departedCluster
        { reason := "left", time := ⟨0, 0⟩ } = .ok r ∧
      r.state.table.shard? ⟨"x", 0⟩ = some x ∧ x.primary? = some c ∧ c.isActive = true ∧
      c.node.any r.state.members.contains = true :=
  standardReachable_reroute (standardReachable_filledCluster.step (.members _) trivial) rfl
    List.mem_cons_self (by simp) (by simp) (by decide +kernel)

end ShardAllocation
