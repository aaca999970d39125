/-
Slots that find a node when nothing is under way.

The placing phases try one slot after the other, and then one missing replica after the other.
As long as none is placed nothing changes but the history, so what is tried late finds what it
would have found at the beginning.  A placing phase therefore places nothing only if nothing could
be placed when it began.  In a view where every copy is started the limits on recoveries are all
far away, and the other deciders have the last word.

* `Suits`, `not_stuck_iff_suits` — without recoveries the limits do not matter;
* `HasPlaced`, `Unfillable` — a copy was placed, and none can be;
* `placements_fills`, `Runs.fillable` — a copy is placed exactly if one can be.
-/
import ShardAllocation.Proofs.Pass.Completion
import ShardAllocation.Proofs.Pass.Exhausted
import ShardAllocation.Proofs.Pass.Log

namespace ShardAllocation

/-- The limits of settings that make sense leave room for something. -/
theorem Settings.limits_pos {set : Settings} (h : set.validate = .ok ()) :
    ∀ limit ∈ set.limits, 0 < limit.2 := by
  intro limit hlimit
  unfold Settings.validate at h
  split at h
  · cases h
  next hnone =>
    have hpos := List.find?_eq_none.mp hnone limit hlimit
    exact Nat.pos_of_ne_zero fun hzero => hpos (beq_iff_eq.mpr hzero)

namespace View

variable {v : View}

/-! ### Views without recoveries -/

namespace Settled

theorem not_initializing (h : v.Settled) {s : ShardId} {n : NodeId} {c : Copy}
    (hc : v.copyOn? s n = some c) : c.isInitializing = false := by
  simp [Copy.isInitializing, h s n c hc]

theorem countInState_initializing (h : v.Settled) (hv : v.Consistent) :
    v.countInState .initializing = 0 := by
  refine List.countP_eq_zero.mpr fun c hc => ?_
  obtain ⟨n, hn⟩ := (mem_flatMap_allNodes hv).mp hc
  simpa [Copy.isInitializing] using h.not_initializing hn

theorem incomingRecoveries (h : v.Settled) (hv : v.Consistent) (n : NodeId) :
    v.incomingRecoveries n = 0 := by
  rw [incomingRecoveries_eq]
  refine List.countP_eq_zero.mpr fun c hc => ?_
  simp [h.not_initializing ((mem_values_heldOn hv).mp hc)]

theorem initializingPrimaries (h : v.Settled) (hv : v.Consistent) (n : NodeId) :
    v.initializingPrimaries n = 0 := by
  rw [initializingPrimaries_eq]
  refine List.countP_eq_zero.mpr fun c hc => ?_
  simp [h.not_initializing ((mem_values_heldOn hv).mp hc)]

theorem outgoingRecoveries (h : v.Settled) (hv : v.Consistent) (n : NodeId) :
    v.outgoingRecoveries n = 0 := by
  rw [outgoingRecoveries_eq]
  have hmoving : (v.heldOn n).values.countP (·.isRelocating) = 0 := by
    refine List.countP_eq_zero.mpr fun c hc => ?_
    simp [Copy.isRelocating, h _ n c ((mem_values_heldOn hv).mp hc)]
  have hserved : (v.servedFrom n).countP isRecoveringReplica = 0 := by
    refine List.countP_eq_zero.mpr fun c hc => ?_
    obtain ⟨-, k, hk⟩ := (mem_servedFrom hv).mp hc
    simp [isRecoveringReplica, h.not_initializing hk]
  rw [hmoving, hserved]

end Settled

end View

namespace Pass

variable {p q r : Pass} {P : Policy} {ds : List Decider} {s : ShardId} {n : NodeId} {c : Copy}
variable {node : DataNode}

/-! ### What the limits leave to the other deciders -/

/-- The node would take the copy but for the limits on recoveries. -/
def Suits (p : Pass) (c : Copy) (node : DataNode) : Prop :=
  (Decider.sameShard.canAllocate c node p).decision = .yes ∧
    (Decider.replicaAfterPrimaryActive.canAllocate c node p).decision = .yes ∧
      (Decider.diskThreshold.canAllocate c node p).decision = .yes

instance : Decidable (p.Suits c node) := inferInstanceAs (Decidable (_ ∧ _ ∧ _))

/-- When nothing is under way the limits do not matter. -/
theorem allocation_standard_iff (hp : p.Sound) (hsettled : p.view.Settled)
    (hset : p.settings.validate = .ok ()) :
    (Decider.allocation Decider.standard c node p false).decision = .yes ↔ p.Suits c node := by
  have hv := hp.view.consistent
  have hlimits := Settings.limits_pos hset
  simp only [Settings.limits, List.forall_mem_cons] at hlimits
  obtain ⟨hnode, hprimaries, hcluster, -⟩ := hlimits
  have hthrottling : (Decider.throttling.canAllocate c node p).decision = .yes := by
    rw [Decider.throttling_eq_yes_iff]
    split
    · rw [hsettled.initializingPrimaries hv]
      exact hprimaries
    · refine ⟨?_, fun source _ => ?_⟩
      · rw [hsettled.incomingRecoveries hv]
        exact hnode
      · rw [hsettled.outgoingRecoveries hv]
        exact hnode
  have hconcurrent : (Decider.concurrentRecoveries.canAllocate c node p).decision = .yes := by
    rw [Decider.concurrentRecoveries_eq_yes_iff, hsettled.countInState_initializing hv]
    exact hcluster
  rw [Decider.allocation_eq_yes_iff, Suits]
  constructor
  · intro hyes
    refine ⟨hyes _ ?_, hyes _ ?_, hyes _ ?_⟩ <;> simp [Decider.standard]
  · rintro ⟨hsame, hactive, hdisk⟩ d hd
    simp only [Decider.standard, List.mem_cons, List.not_mem_nil, or_false] at hd
    rcases hd with rfl | rfl | rfl | rfl | rfl | rfl | rfl | rfl
    · exact hsame
    · exact hactive
    · exact hdisk
    · exact hthrottling
    · exact hconcurrent
    all_goals rfl

/-- When nothing is under way a copy finds no node only if none suits it. -/
theorem not_stuck_iff_suits (hp : p.Sound) (hsettled : p.view.Settled)
    (hset : p.settings.validate = .ok ()) :
    ¬ Stuck Decider.standard p c none ↔ ∃ node ∈ p.view.liveNodes, p.Suits c node := by
  rw [stuck_iff]
  simp only [← allocation_standard_iff hp hsettled hset]
  push Not
  simp

/-! ### Copies that were placed and slots that cannot be filled -/

/-- Some copy was placed. -/
def HasPlaced (p : Pass) : Prop :=
  ∃ s n primary source, Transition.initialized s n primary source ∈ p.view.transitions

theorem Runs.hasPlaced {G : Pass → Change → Prop} (h : Runs G p q) (hp : p.HasPlaced) :
    q.HasPlaced := by
  obtain ⟨s, n, primary, source, hmem⟩ := hp
  refine ⟨s, n, primary, source, h.invariant
    (I := fun r => Transition.initialized s n primary source ∈ r.view.transitions) hmem ?_⟩
  intro r ch hr _ _
  rw [Change.apply, View.transitions_onView]
  exact List.mem_append_left _ hr

theorem hasPlaced_install (p : Pass) (c : Copy) (n : NodeId) :
    ((Change.install c n).apply p).HasPlaced :=
  ⟨_, _, _, _, List.mem_append_right _ (List.mem_singleton_self _)⟩

theorem hasPlaced_create (p : Pass) (c : Copy) (n : NodeId) :
    ((Change.create c n).apply p).HasPlaced :=
  ⟨_, _, _, _, List.mem_append_right _ (List.mem_singleton_self _)⟩

/-- The replica that the pass creates when a shard lacks one. -/
def replica (p : Pass) (s : ShardId) : Copy :=
  Copy.newUnassigned s false (p.unassignedInfo .replicaAdded none)

theorem Stuck.replica (hds : ds ⊆ Decider.standard) {info : UnassignedInfo}
    (h : Stuck ds p (Copy.newUnassigned s false info) none) : Stuck ds p (p.replica s) none := by
  intro n hn
  have hsame : findNode ds (p.replica s) none p =
      findNode ds (Copy.newUnassigned s false info) none p :=
    findNode_withInfo hds (Copy.newUnassigned s false info) _
  exact h n (hsame.symm.trans hn)

/-- No slot can be filled and no replica rebuilt. -/
structure Unfillable (ds : List Decider) (p : Pass) : Prop where
  waiting : ∀ c ∈ p.view.unassigned, isLostPrimary c = true ∨ Stuck ds p c none
  missing : ∀ s, p.view.slotCount s < p.state.metadata.capacity s → Stuck ds p (p.replica s) none

/-- As long as the view is the same, the deciders cannot tell the passes of a run apart. -/
theorem Runs.alike {G : Pass → Change → Prop} (h : Runs G p q) (hview : q.view = p.view) :
    p.Alike q := by
  obtain ⟨hstate, hsettings, -, -⟩ := h.frame
  exact ⟨by rw [hview], by rw [hview], by rw [hview], by rw [hview], by rw [hstate],
    by rw [hstate], hsettings⟩

/-- The allocation places a copy, or leaves the view as it is because it found no node for any
slot. -/
theorem allocateUnassigned_fills (hp : p.Sound) (hds : P.deciders ⊆ Decider.standard) :
    Leads (Decider.sameShard ∉ P.deciders) (allocateUnassigned P.deciders) p fun _ q =>
      Runs P.Places p q ∧ (q.HasPlaced ∨ q.view = p.view ∧
        ∀ c ∈ p.view.unassigned, isLostPrimary c = true ∨ Stuck P.deciders p c none) := by
  refine leads_get ?_
  have hsorted := (perm_sortBy allocationOrder p.view.unassigned).symm
  refine (leads_forM (I := fun rest q => Allocating P p rest q ∧
    (q.HasPlaced ∨ q.view = p.view ∧ ∀ c ∈ p.view.unassigned,
      c ∈ rest ∨ isLostPrimary c = true ∨ Stuck P.deciders p c none))
    ⟨⟨.refl, [], by rwa [List.append_nil], fun d hd => absurd hd List.not_mem_nil⟩,
      .inr ⟨rfl, fun c hc => .inl (hsorted.mem_iff.mp hc)⟩⟩ ?_).mono ?_
  · rintro c rest q ⟨hq, hsofar⟩
    obtain ⟨done, hperm, -⟩ := hq.waiting
    have hmem : c ∈ q.view.unassigned := hperm.mem_iff.mpr List.mem_cons_self
    refine (allocateCopy_leads (hq.runs.sound hp) rfl hmem).mono ?_
    rintro - r ⟨hmore, hdone⟩
    refine ⟨hq.step hmore hdone, ?_⟩
    rcases hsofar with hplaced | ⟨hview, hleft⟩
    · exact .inl (hmore.hasPlaced hplaced)
    rcases hdone with ⟨n, rfl⟩ | ⟨hsame, hc⟩
    · exact .inl (hasPlaced_install q c n)
    refine .inr ⟨hsame.trans hview, fun d hd => ?_⟩
    rcases hleft d hd with hrest | hdone
    · rcases List.mem_cons.mp hrest with rfl | hrest
      · -- nothing has changed since the beginning that the deciders look at
        have halike : q.Alike p := (hq.runs.alike hview).symm
        exact .inr (hc.imp_right fun hstuck => hstuck.alike hds halike)
      · exact .inl hrest
    · exact .inr hdone
  · rintro - q ⟨hq, hsofar⟩
    exact ⟨hq.runs, hsofar.imp_right fun ⟨hview, hleft⟩ =>
      ⟨hview, fun c hc => (hleft c hc).resolve_left List.not_mem_nil⟩⟩

/-- The replenishment places a copy, or does nothing because it found no node for any replica. -/
theorem replenishReplicas_fills (hp : p.Sound) (hds : P.deciders ⊆ Decider.standard) :
    Leads (Decider.sameShard ∉ P.deciders) (replenishReplicas P.deciders) p fun _ q =>
      Runs P.Places p q ∧ (q.HasPlaced ∨ ∀ s,
        p.view.slotCount s < p.state.metadata.capacity s →
          Stuck P.deciders p (p.replica s) none) := by
  let Done (s : ShardId) (q : Pass) : Prop := q.HasPlaced ∨
    (p.view.slotCount s < p.state.metadata.capacity s → Stuck P.deciders p (p.replica s) none)
  refine leads_get ((leads_forM_each
    (I := fun q => Runs P.Places p q ∧ (q.HasPlaced ∨ q = p))
    (D := fun m q => ∀ s ∈ m.shardIds, Done s q) ⟨.refl, .inr rfl⟩ ?_).mono ?_)
  · rintro m hm q ⟨hpq, hq⟩
    refine (leads_forM_each (I := fun r => Runs P.Places q r ∧ (r.HasPlaced ∨ r = p))
      (D := Done) ⟨.refl, hq⟩ ?_).mono ?_
    · rintro s hs r ⟨hqr, hr⟩
      refine leads_get ?_
      have hpr := hpq.trans hqr
      have hsound := hpr.sound hp
      have hcapacity : r.state.metadata.capacity s = m.copiesPerShard := by
        rw [hpr.frame.1]
        exact capacity_of_mem hp hm hs
      have hroom := hsound.view.room s
      refine (replenishShard_leads (P := P) hsound rfl (by omega)).mono ?_
      rintro - u ⟨hmore, hchanged, hdone⟩
      have hkeep : ∀ t, Done t r → Done t u := fun t => Or.imp_left hmore.hasPlaced
      rcases hr with hplaced | rfl
      · exact ⟨⟨hqr.trans hmore, .inl (hmore.hasPlaced hplaced)⟩, .inl (hmore.hasPlaced hplaced),
          fun t _ => hkeep t⟩
      rcases hchanged with rfl | ⟨c, n, hcreated⟩
      · refine ⟨⟨hqr, .inr rfl⟩, .inr fun hlacks => ?_, fun t _ => hkeep t⟩
        rcases hdone with hfull | ⟨info, hstuck⟩
        · omega
        · exact hstuck.replica hds
      · have hplaced := hcreated.hasPlaced (hasPlaced_create r c n)
        exact ⟨⟨hqr.trans hmore, .inl hplaced⟩, .inl hplaced, fun t _ => hkeep t⟩
    · rintro - r ⟨⟨hqr, hr⟩, hdone⟩
      exact ⟨⟨hpq.trans hqr, hr⟩, hdone, fun k _ hk s hs => (hk s hs).imp_left hqr.hasPlaced⟩
  · rintro - q ⟨⟨hpq, -⟩, hdone⟩
    refine ⟨hpq, or_iff_not_imp_left.mpr fun hnone s hroom => ?_⟩
    obtain ⟨m, hm, hs⟩ := exists_mem_shardIds hp
      (Metadata.knows_of_capacity_pos (Nat.zero_lt_of_lt hroom))
    exact (hdone m hm s hs).resolve_left hnone hroom

/-- The placing phases place a copy unless none can be placed. -/
theorem placements_fills (hp : p.Sound) (hds : P.deciders ⊆ Decider.standard) :
    Leads (Decider.sameShard ∉ P.deciders) (placements P.deciders) p fun _ q =>
      Runs P.Places p q ∧ (q.HasPlaced ∨ Unfillable P.deciders p) := by
  refine (allocateUnassigned_fills hp hds).bind ?_
  rintro - p₁ ⟨hallocate, hwaiting⟩
  have hp₁ := hallocate.sound hp
  refine (replenishReplicas_fills hp₁ hds).bind ?_
  rintro - p₂ ⟨hreplenish, hmissing⟩
  have hp₂ := hreplenish.sound hp₁
  refine (moveShards_leads (P := P) hp₂).bind ?_
  rintro - p₃ ⟨hmove, -⟩
  have hp₃ := hmove.sound hp₂
  refine (rebalance_leads (P := P) hp₃).mono ?_
  rintro - q ⟨hbalances, -⟩
  have hbalance : Runs P.Places p₃ q :=
    hbalances.mono_of_sound hp₃ fun _ _ _ hr hfit => Balances.places hr hfit
  have hlater := hmove.trans hbalance
  refine ⟨hallocate.trans (hreplenish.trans hlater), ?_⟩
  rcases hwaiting with hplaced | ⟨hview, hwaiting⟩
  · exact .inl ((hreplenish.trans hlater).hasPlaced hplaced)
  rcases hmissing with hplaced | hmissing
  · exact .inl (hlater.hasPlaced hplaced)
  refine .inr ⟨hwaiting, fun s hroom => ?_⟩
  -- the allocation has changed nothing that the deciders look at
  have halike := hallocate.alike hview
  rw [← halike.slotCount_eq, ← halike.metadata] at hroom
  have hstuck := (hmissing s hroom).alike hds halike.symm
  exact hstuck.replica hds

/-- What is placed at some point could have been placed at the beginning. -/
theorem Runs.fillable (h : Runs P.Places p q) (hp : p.Sound)
    (hds : P.deciders ⊆ Decider.standard)
    (hcovers : p.view.Covers fun k => p.view.isLive k = true)
    (hforced : ∀ s, ¬ P.forced s) (hfirst : p.view.transitions = []) (hq : q.HasPlaced) :
    ¬ Unfillable P.deciders p := by
  obtain ⟨s, n, primary, source, hmem⟩ := hq
  obtain ⟨before, after, hlog⟩ := List.append_of_mem hmem
  rcases h.exists_placed hlog with ⟨rest, hbefore⟩ |
    ⟨u, ch, c, hpu, -, hfit, hplaces, hchange, -, -⟩
  · rw [hfirst] at hbefore
    simp at hbefore
  intro hnone
  have hu := hpu.sound hp
  have hgrown := hpu.grown hp
  have hlater : ∀ {d}, Stuck P.deciders p d none → Stuck P.deciders u d none :=
    fun hstuck => hstuck.grown hds hgrown hp hu hcovers
  have hfound : ∀ {d}, u.view.isLive n = true → Approves P.deciders u d n →
      ¬ Stuck P.deciders u d none := by
    rintro d hlive ⟨node, hnode, hyes⟩ hstuck
    exact stuck_iff.mp hstuck node (mem_liveNodes hnode hlive) (by simp) hyes
  rcases hchange with rfl | rfl
  · obtain ⟨hwaits, -, hlive⟩ := hfit
    rcases hnone.waiting c (hgrown.view.waiting hwaits) with hlost | hstuck
    · exact hforced _ (hplaces.1.2 hlost)
    · exact hfound hlive hplaces.2 (hlater hstuck)
  · obtain ⟨hstate, hshaped, hprim, hroom, -, hlive⟩ := hfit
    rw [hgrown.state] at hroom
    have hstuck := hlater (hnone.missing c.shard (Nat.lt_of_le_of_lt (hgrown.view.slots _) hroom))
    refine hfound hlive hplaces.2 fun k hk => hstuck k ?_
    -- the new slot differs from the replica only in what it remembers
    have hsame := hshaped.eq_withInfo (Copy.Shaped.newUnassigned c.shard false
      (p.unassignedInfo .replicaAdded none)) hstate rfl rfl hprim
    rw [hsame, findNode_withInfo hds] at hk
    exact hk

end Pass

end ShardAllocation
