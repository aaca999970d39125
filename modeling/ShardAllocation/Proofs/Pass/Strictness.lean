/-
What is refused stays refused.

While a pass places copies, recoveries are only added and no copy leaves its node.  Each of
the standard deciders gets stricter on the way: a node that it accepts late in the pass is one
that it would have accepted earlier.  So a copy for which no node was found finds none up to
the end of the pass.

* `canRemain_eq` — which deciders make copies leave;
* `canAllocate_of_grown` — the deciders get stricter;
* `Stuck.grown`, `Unmovable.grown` — nothing is found later on.
-/
import ShardAllocation.Decider.Standard
import ShardAllocation.Proofs.Pass.Placement

namespace ShardAllocation

namespace Decider

variable {ds : List Decider} {c : Copy} {node : DataNode} {p : Pass} {explain : Bool}

/-! ### When the deciders say yes -/

theorem worstOf_eq_yes_iff {verdicts : List Verdict} :
    worstOf verdicts = .yes ↔ ∀ v ∈ verdicts, v.decision = .yes := by
  obtain ⟨hbound, hattained⟩ := isWorst_worstOf verdicts
  constructor
  · intro hyes v hv
    exact Decision.eq_yes_of_rank_le (hyes ▸ hbound v hv)
  · intro hall
    rcases hattained with hyes | ⟨v, hv, hworst⟩
    · exact hyes
    · exact hworst.symm.trans (hall v hv)

theorem allocation_eq_yes_iff : (allocation ds c node p explain).decision = .yes ↔
    ∀ d ∈ ds, (d.canAllocate c node p).decision = .yes := by
  rw [allocation, decision_combine, worstOf_eq_yes_iff, List.forall_mem_map]

theorem sameShard_eq_yes_iff : (sameShard.canAllocate c node p).decision = .yes ↔
    node.held.get? c.shard = none := by
  cases hget : node.held.get? c.shard <;> simp [sameShard, hget]

theorem replicaAfterPrimaryActive_eq_yes_iff :
    (replicaAfterPrimaryActive.canAllocate c node p).decision = .yes ↔
      c.primary = true ∨ (p.view.activePrimary? c.shard).isSome = true := by
  cases hprim : c.primary <;> cases hactive : (p.view.activePrimary? c.shard).isSome <;>
    simp [replicaAfterPrimaryActive, hprim, hactive]

theorem throttling_eq_yes_iff : (throttling.canAllocate c node p).decision = .yes ↔
    if c.primary && c.isUnassigned then
      p.view.initializingPrimaries node.id < p.settings.nodeInitialPrimariesRecoveries
    else p.view.incomingRecoveries node.id < p.settings.nodeConcurrentRecoveries ∧
      ∀ source, sourceNode? c p = some source →
        p.view.outgoingRecoveries source < p.settings.nodeConcurrentRecoveries := by
  simp only [throttling]
  split
  next => split <;> simp_all
  next =>
    split
    next hfull => simp [Nat.not_lt.mpr hfull]
    next hroom =>
      cases hsource : sourceNode? c p with
      | none => simpa using hroom
      | some source =>
        simp only [Option.some_inj, forall_eq']
        split <;> simp_all

theorem concurrentRecoveries_eq_yes_iff :
    (concurrentRecoveries.canAllocate c node p).decision = .yes ↔
      p.view.countInState .initializing < p.settings.clusterConcurrentRecoveries := by
  simp only [concurrentRecoveries]
  split <;> simp_all

/-- Among the standard deciders only the one for disks makes copies leave. -/
theorem canRemain_eq {d : Decider} (hd : d ∈ standard) : d = diskThreshold ∨
    ∀ c node p, d.canRemain c node p = ⟨d.name, .yes, "no constraint"⟩ := by
  simp only [standard, List.mem_cons, List.not_mem_nil, or_false] at hd
  rcases hd with rfl | rfl | rfl | rfl | rfl | rfl | rfl | rfl
  case inr.inr.inl => exact .inl rfl
  all_goals exact .inr fun _ _ _ => rfl

end Decider

namespace Pass

variable {p q : Pass} {ds : List Decider} {n : NodeId} {c : Copy} {node node' : DataNode}

/-! ### The deciders get stricter -/

theorem Grown.sourceNode?_eq (h : p.Grown q) (hp : p.Sound) (hq : q.Sound) (c : Copy) :
    Decider.sourceNode? c q = Decider.sourceNode? c p := by
  have hnodes := h.view.activePrimary?_eq hp.view (h.state ▸ hq.view) c.shard
  rw [Decider.sourceNode?, Decider.sourceNode?]
  split
  next =>
    cases hbefore : p.view.activePrimary? c.shard <;>
      cases hafter : q.view.activePrimary? c.shard <;> simp_all
  next => rfl

theorem Grown.watchedUsage_eq (h : p.Grown q) (hid : node'.id = node.id) :
    Decider.watchedUsage node' q = Decider.watchedUsage node p := by
  rw [Decider.watchedUsage, Decider.watchedUsage, h.settings, diskUsage?, diskUsage?, h.state, hid]

/-- A node that a standard decider accepts was accepted before. -/
theorem canAllocate_of_grown {d : Decider} (hd : d ∈ Decider.standard) (h : p.Grown q)
    (hp : p.Sound) (hq : q.Sound) (hnode : p.view.node? n = some node)
    (hnode' : q.view.node? n = some node') (hyes : (d.canAllocate c node' q).decision = .yes) :
    (d.canAllocate c node p).decision = .yes := by
  obtain ⟨hid, hheld⟩ := node?_eq_some hnode
  obtain ⟨hid', hheld'⟩ := node?_eq_some hnode'
  have hv := hp.view.consistent
  have hw := hq.view.consistent
  simp only [Decider.standard, List.mem_cons, List.not_mem_nil, or_false] at hd
  rcases hd with rfl | rfl | rfl | rfl | rfl | rfl | rfl | rfl
  · -- no copy of the shard is there now, so none was there before
    rw [Decider.sameShard_eq_yes_iff] at hyes ⊢
    rw [← hheld'] at hyes
    rw [← hheld]
    exact (h.view.layout c.shard).eq_none hyes
  · rw [Decider.replicaAfterPrimaryActive_eq_yes_iff] at hyes ⊢
    have hnodes := h.view.activePrimary?_eq hp.view (h.state ▸ hq.view) c.shard
    have hsome := congrArg Option.isSome hnodes
    rw [Option.isSome_map, Option.isSome_map] at hsome
    rwa [← hsome]
  · have husage := h.watchedUsage_eq (hid'.trans hid.symm)
    simp only [Decider.diskThreshold] at hyes ⊢
    rwa [husage, h.settings] at hyes
  · rw [Decider.throttling_eq_yes_iff] at hyes ⊢
    rw [hid', h.settings, h.sourceNode?_eq hp hq] at hyes
    rw [hid]
    split at hyes
    next hprim =>
      rw [if_pos hprim]
      exact Nat.lt_of_le_of_lt (h.view.initializingPrimaries_le hv hw) hyes
    next hprim =>
      rw [if_neg hprim]
      refine ⟨Nat.lt_of_le_of_lt (h.view.incomingRecoveries_le hv hw) hyes.1, fun source hs => ?_⟩
      exact Nat.lt_of_le_of_lt (h.view.outgoingRecoveries_le hv hw) (hyes.2 source hs)
  · rw [Decider.concurrentRecoveries_eq_yes_iff] at hyes ⊢
    rw [h.settings] at hyes
    exact Nat.lt_of_le_of_lt (h.view.countInState_initializing_le hv hw) hyes
  all_goals rfl

/-- Whether a copy may remain on a node does not change while copies are placed. -/
theorem remaining_of_grown (hds : ds ⊆ Decider.standard) (h : p.Grown q)
    (hid : node'.id = node.id) (explain : Bool) :
    Decider.remaining ds c node' q explain = Decider.remaining ds c node p explain := by
  rw [Decider.remaining, Decider.remaining, hid]
  congr 1
  refine List.map_congr_left fun d hd => ?_
  rcases Decider.canRemain_eq (hds hd) with rfl | hyes
  · simp only [Decider.diskThreshold]
    rw [h.watchedUsage_eq hid, h.settings]
  · rw [hyes, hyes]

/-! ### No node is found later -/

theorem mem_candidates {v : View} : node ∈ candidates v ↔ node ∈ v.liveNodes := by
  rw [candidates, List.mem_map]
  constructor
  · rintro ⟨entry, hentry, rfl⟩
    exact mem_liveNodes_of_byWeight hentry
  · intro hnode
    exact ⟨(node.weight, node), (mem_sortBy lighter).mpr (List.mem_map_of_mem hnode), rfl⟩

theorem tryNodes_ne_node_iff {seen : List NodeDecision} {nodes : List DataNode} :
    (∀ n, tryNodes ds c p seen nodes ≠ .node n) ↔
      ∀ node ∈ nodes, (Decider.allocation ds c node p false).decision ≠ .yes := by
  constructor
  · induction nodes generalizing seen with
    | nil => exact fun _ _ hmem => absurd hmem List.not_mem_nil
    | cons node rest ih =>
      intro h other hmem
      simp only [tryNodes] at h
      split at h
      next => exact absurd rfl (h node.id)
      next hno =>
        rcases List.mem_cons.mp hmem with rfl | hmem
        · exact hno
        · exact ih h other hmem
  · intro h n hn
    obtain ⟨node, hmem, -, hyes⟩ := tryNodes_node hn
    exact h node hmem hyes

/-- No node is found for a copy when no other member accepts it. -/
theorem stuck_iff {excluded : Option NodeId} : Stuck ds p c excluded ↔
    ∀ node ∈ p.view.liveNodes, excluded ≠ some node.id →
      (Decider.allocation ds c node p false).decision ≠ .yes := by
  rw [Stuck]
  simp only [findNode]
  rw [tryNodes_ne_node_iff]
  simp only [List.mem_filter, mem_candidates, bne_iff_ne, and_imp]

/-- A copy for which no node was found finds none later. -/
theorem Stuck.grown {excluded : Option NodeId} (h : Stuck ds p c excluded)
    (hds : ds ⊆ Decider.standard) (hgrown : p.Grown q) (hp : p.Sound) (hq : q.Sound)
    (hcovers : p.view.Covers fun k => p.view.isLive k = true) : Stuck ds q c excluded := by
  rw [stuck_iff] at h ⊢
  intro node' hmem' hne hyes'
  obtain ⟨hnode', hlive'⟩ := node?_of_mem_liveNodes hmem'
  have hlive := (hgrown.view.isLive_eq node'.id).symm.trans hlive'
  obtain ⟨node, hnode, hid⟩ := exists_node? (hcovers _ hlive)
  refine h node (mem_liveNodes hnode hlive) (hid ▸ hne) ?_
  rw [Decider.allocation_eq_yes_iff] at hyes' ⊢
  exact fun d hd => canAllocate_of_grown (hds hd) hgrown hp hq hnode hnode' (hyes' d hd)

/-- A copy that has to stay where it is has to stay there later. -/
theorem Unmovable.grown (h : Unmovable ds p n c) (hds : ds ⊆ Decider.standard)
    (hgrown : p.Grown q) (hp : p.Sound) (hq : q.Sound)
    (hcovers : p.view.Covers fun k => p.view.isLive k = true) (hn : p.view.isLive n = true) :
    Unmovable ds q n c := by
  intro node' hnode' hno
  obtain ⟨node, hnode, hid⟩ := exists_node? (hcovers n hn)
  have hid := (node?_eq_some hnode').1.trans hid.symm
  rw [remaining_of_grown hds hgrown hid] at hno
  exact (h node hnode hno).grown hds hgrown hp hq hcovers

end Pass

end ShardAllocation
