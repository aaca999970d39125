/-
What the rebalancer comes to.

The rebalancer takes a started copy from one member to another whose weight is lower by two at
least and by more than the threshold.  So every one of its moves brings the weights closer
together: the sum of their squares goes down, and the heaviest and the lightest member do not move
apart.  It makes a move only while fewer copies than the limit are moving, and when it stops it may
not go on, or there is no such copy left.

* `Levels` — a copy that may move for balance, with `nextMove?_eq_none_iff_levels`;
* `imbalance` — the distance between the heaviest and the lightest member, which no move of this
  kind makes larger (`Moved.imbalance_le`);
* `Turn` — what one turn of the rebalancer does, with `Balances.turn`;
* `Runs.relocating_le` — how many copies move in the end;
* `beforeRebalance` — the phases before the rebalancer;
* `rebalance_turns` — the rebalancer, from its beginning to its end.
-/
import ShardAllocation.Proofs.Pass.Descent

namespace ShardAllocation

/-- The threshold of settings that make sense is a number. -/
theorem Settings.threshold_ne_nan {set : Settings} (h : set.validate = .ok ()) :
    set.rebalance.threshold ≠ .nan := by
  intro hnan
  unfold Settings.validate at h
  split at h
  · cases h
  · rw [hnan] at h
    cases h

namespace Decider

variable {ds : List Decider} {p : Pass}

/-- The rebalancer may run when every decider says so. -/
theorem clusterRebalance_eq_yes_iff : clusterRebalance ds p = .yes ↔
    ∀ d ∈ ds, (d.canRebalanceCluster p).decision = .yes := by
  rw [clusterRebalance, worstOf_eq_yes_iff, List.forall_mem_map]

theorem concurrentRebalance_eq_yes_iff :
    (concurrentRebalance.canRebalanceCluster p).decision = .yes ↔
      p.view.countInState .relocating < p.settings.clusterConcurrentRebalance := by
  simp only [concurrentRebalance]
  split <;> simp_all

end Decider

namespace Pass

variable {p q : Pass} {P : Policy} {ds : List Decider} {ch : Change} {c : Copy} {n k : NodeId}

/-! ### Copies that may move -/

/-- The started copy on the member `n` may move for balance to the member `k`, where the deciders
accept it and the weight is lower by two at least and by more than the threshold. -/
structure Levels (ds : List Decider) (p : Pass) (c : Copy) (n k : NodeId) : Prop where
  copy : p.view.copyOn? c.shard n = some c
  started : c.state = .started
  members : p.view.isLive n = true ∧ p.view.isLive k = true
  lighter : p.view.weightOn k + 2 ≤ p.view.weightOn n
  beyond : Binary.lt p.settings.rebalance.threshold
    (Binary.natural (p.view.weightOn n - p.view.weightOn k)) = true
  movable : Decider.shardRebalance ds c p = .yes
  approved : Approves ds p c k

theorem nextMove?_levels (hp : p.Sound) (hset : p.settings.rebalance.threshold ≠ .nan)
    {m : BalanceMove} (h : nextMove? ds p = some m) :
    ∃ c, c.shard = m.shard ∧ Levels ds p c m.source m.target := by
  obtain ⟨source, hsource, target, htarget, hexceeds, c, hc, rfl⟩ := exists_of_nextMove? h
  obtain ⟨hsnode, hslive⟩ := node?_of_mem_liveNodes hsource
  obtain ⟨⟨hheld, hs⟩, hmovable, hyes⟩ := of_movableCopy? hp hsnode hc
  obtain ⟨htnode, htlive⟩ := node?_of_mem_liveNodes htarget
  rw [View.weight_of_node? hsnode, View.weight_of_node? htnode, exceedsSpread_iff hset] at hexceeds
  obtain ⟨htwo, hbeyond⟩ := hexceeds
  have hlighter : p.view.weightOn target.id + 2 ≤ p.view.weightOn source.id := by omega
  refine ⟨c, rfl, ?_⟩
  constructor
  case copy => exact hheld
  case started => exact hs
  case members => exact ⟨hslive, htlive⟩
  case lighter => exact hlighter
  case beyond => exact hbeyond
  case movable => exact hmovable
  case approved => exact ⟨target, htnode, hyes⟩

/-- The search for a move overlooks no copy. -/
theorem nextMove?_eq_none_iff_levels (hp : p.Sound)
    (hset : p.settings.rebalance.threshold ≠ .nan) :
    nextMove? ds p = none ↔ ∀ c n k, ¬ Levels ds p c n k := by
  constructor
  · intro hnone c n k h
    obtain ⟨target, htnode, hyes⟩ := h.approved
    obtain ⟨source, hsnode, -⟩ := exists_node? (View.contains_nodes_of_copyOn? h.copy)
    have hlighter := h.lighter
    have hexceeds : p.exceedsSpread (source.weight - target.weight) = true := by
      rw [View.weight_of_node? hsnode, View.weight_of_node? htnode, exceedsSpread_iff hset]
      exact ⟨by omega, h.beyond⟩
    have hnothing := nextMove?_eq_none_iff.mp hnone source (mem_liveNodes hsnode h.members.1)
      target (mem_liveNodes htnode h.members.2) hexceeds
    have hstarted := (mem_filter_isStarted_iff hp.view.consistent hsnode).mpr ⟨h.copy, h.started⟩
    have hrefused := List.find?_eq_none.mp hnothing c hstarted
    simp [h.movable, hyes] at hrefused
  · intro hno
    cases hnext : nextMove? ds p with
    | none => rfl
    | some m =>
      obtain ⟨c, -, hlevels⟩ := nextMove?_levels hp hset hnext
      exact absurd hlevels (hno c m.source m.target)

/-! ### The heaviest and the lightest member -/

/-- The weights of the members. -/
def weights (p : Pass) : List Nat := p.view.live.keys.map p.view.weightOn

/-- The distance between the heaviest and the lightest member. -/
def imbalance (p : Pass) : Nat := p.weights.max?.getD 0 - p.weights.min?.getD 0

theorem mem_weights {weight : Nat} :
    weight ∈ p.weights ↔ ∃ n, p.view.isLive n = true ∧ p.view.weightOn n = weight := by
  simp only [weights, List.mem_map, SortedMap.mem_keys_iff, View.isLive]

/-- It is the largest difference between two members. -/
theorem imbalance_le_iff {d : Nat} : p.imbalance ≤ d ↔ ∀ n k, p.view.isLive n = true →
    p.view.isLive k = true → p.view.weightOn n ≤ p.view.weightOn k + d := by
  have hmem : ∀ n, p.view.isLive n = true → p.view.weightOn n ∈ p.weights :=
    fun n hn => mem_weights.mpr ⟨n, hn, rfl⟩
  rw [imbalance]
  cases hmax : p.weights.max? with
  | none =>
    have hnone := List.max?_eq_none_iff.mp hmax
    rw [hnone] at hmem
    exact ⟨fun _ n _ hn => absurd (hmem n hn) List.not_mem_nil,
      fun _ => Nat.le_trans (Nat.sub_le _ _) (Nat.zero_le d)⟩
  | some heaviest =>
    obtain ⟨hheaviest, hle⟩ := List.max?_eq_some_iff.mp hmax
    cases hmin : p.weights.min? with
    | none =>
      rw [List.min?_eq_none_iff.mp hmin] at hheaviest
      exact absurd hheaviest List.not_mem_nil
    | some lightest =>
      obtain ⟨hlightest, hge⟩ := List.min?_eq_some_iff.mp hmin
      rw [Option.getD_some, Option.getD_some]
      constructor
      · intro h n k hn hk
        have hn := hle _ (hmem n hn)
        have hk := hge _ (hmem k hk)
        omega
      · intro h
        obtain ⟨n, hn, rfl⟩ := mem_weights.mp hheaviest
        obtain ⟨k, hk, rfl⟩ := mem_weights.mp hlightest
        have hpair := h n k hn hk
        omega

theorem weightOn_le_add_imbalance (hn : p.view.isLive n = true) (hk : p.view.isLive k = true) :
    p.view.weightOn n ≤ p.view.weightOn k + p.imbalance :=
  imbalance_le_iff.mp (Nat.le_refl _) n k hn hk

namespace Moved

/-- No member becomes heavier than the source of the move was. -/
theorem exists_heavier (h : Moved p q n k)
    (hless : p.view.weightOn k + 2 ≤ p.view.weightOn n) {m : NodeId}
    (hm : p.view.isLive m = true) :
    ∃ j, p.view.isLive j = true ∧ q.view.weightOn m ≤ p.view.weightOn j := by
  have hsource := h.source
  have htarget := h.target
  by_cases hn : m = n
  · exact ⟨n, h.members.1, by rw [hn]; omega⟩
  by_cases hk : m = k
  · exact ⟨n, h.members.1, by rw [hk]; omega⟩
  · exact ⟨m, hm, Nat.le_of_eq (h.rest m hn hk)⟩

/-- No member becomes lighter than the target of the move was. -/
theorem exists_lighter (h : Moved p q n k)
    (hless : p.view.weightOn k + 2 ≤ p.view.weightOn n) {m : NodeId}
    (hm : p.view.isLive m = true) :
    ∃ j, p.view.isLive j = true ∧ p.view.weightOn j ≤ q.view.weightOn m := by
  have hsource := h.source
  have htarget := h.target
  by_cases hn : m = n
  · exact ⟨k, h.members.2, by rw [hn]; omega⟩
  by_cases hk : m = k
  · exact ⟨k, h.members.2, by rw [hk]; omega⟩
  · exact ⟨m, hm, Nat.le_of_eq (h.rest m hn hk).symm⟩

/-- A move to a lighter member moves no two members apart. -/
theorem imbalance_le (h : Moved p q n k)
    (hless : p.view.weightOn k + 2 ≤ p.view.weightOn n) : q.imbalance ≤ p.imbalance := by
  refine imbalance_le_iff.mpr fun a b ha hb => ?_
  rw [View.isLive, h.live, ← View.isLive] at ha hb
  obtain ⟨heavy, hheavy, hle⟩ := h.exists_heavier hless ha
  obtain ⟨light, hlight, hge⟩ := h.exists_lighter hless hb
  have hbefore := weightOn_le_add_imbalance hheavy hlight
  omega

end Moved

/-! ### One turn -/

/-- What one turn of the rebalancer does. -/
structure Turn (ds : List Decider) (p : Pass) (ch : Change) : Prop where
  allowed : Decider.clusterRebalance ds p = .yes
  /-- The move that comes next begins, and brings the copy to a lighter member. -/
  moves : ∃ c n k, ch = .relocate c n k ∧ nextMove? ds p = some ⟨c.shard, n, k⟩ ∧
    Levels ds p c n k
  squares : (ch.apply p).unevenness < p.unevenness
  spread : (ch.apply p).imbalance ≤ p.imbalance

theorem Balances.turn (h : Balances ds p ch) (hp : p.Sound)
    (hset : p.settings.rebalance.threshold ≠ .nan)
    (hfit : ch.Fits p.state.metadata p.view) : Turn ds p ch := by
  cases ch with
  | relocate c n k =>
    obtain ⟨hallowed, hnext⟩ := h
    obtain ⟨d, hshard, hlevels⟩ := nextMove?_levels hp hset hnext
    have hd := hlevels.copy
    rw [hshard] at hd
    obtain rfl : c = d := Option.some_inj.mp (hfit.1.symm.trans hd)
    have hmoved := Moved.relocate hfit hlevels.members.1
    exact ⟨hallowed, ⟨c, n, k, rfl, hnext, hlevels⟩, hmoved.unevenness_lt hlevels.lighter,
      hmoved.imbalance_le hlevels.lighter⟩
  | _ => exact h.elim

/-- A turn begins below the limit on moves. -/
theorem Balances.relocating_le (h : Balances ds p ch) (hp : p.Sound)
    (hds : Decider.concurrentRebalance ∈ ds) (hfit : ch.Fits p.state.metadata p.view) :
    (ch.apply p).view.countInState .relocating ≤ p.settings.clusterConcurrentRebalance := by
  cases ch with
  | relocate c n k =>
    obtain ⟨hc, hs, hempty, -⟩ := hfit
    have hroom := Decider.concurrentRebalance_eq_yes_iff.mp
      (Decider.clusterRebalance_eq_yes_iff.mp h.1 _ hds)
    have hmore : ((Change.relocate c n k).apply p).view.countInState .relocating ≤
        p.view.countInState .relocating + 1 :=
      View.countInState_relocating_depart hp.view.consistent hc hs hempty
    omega
  | _ => exact h.elim

/-! ### The whole loop -/

/-- The rebalancer leaves as many copies moving as were moving before, or as the limit lets. -/
theorem Runs.relocating_le (h : Runs (Balances ds) p q) (hp : p.Sound)
    (hds : Decider.concurrentRebalance ∈ ds) : q.view.countInState .relocating ≤
      max (p.view.countInState .relocating) p.settings.clusterConcurrentRebalance := by
  refine h.invariant_of_sound hp (I := fun r => r.view.countInState .relocating ≤
    max (p.view.countInState .relocating) p.settings.clusterConcurrentRebalance)
    (Nat.le_max_left _ _) fun r ch hrun hr _ hfit hguard => ?_
  have hbelow := hguard.relocating_le hr hds hfit
  rw [hrun.frame.2.1] at hbelow
  exact Nat.le_trans hbelow (Nat.le_max_right _ _)

/-- The rebalancer ends without a fault, makes its moves turn by turn, and stops when it may not
run or when no copy may move. -/
theorem rebalance_turns (hp : p.Sound) (hset : p.settings.validate = .ok ())
    (hsame : Decider.sameShard ∈ P.deciders) (hlimit : Decider.concurrentRebalance ∈ P.deciders) :
    ∃ q, rebalance P.deciders p = .ok () q ∧ Runs (Turn P.deciders) p q ∧
      q.view.countInState .relocating ≤
        max (p.view.countInState .relocating) p.settings.clusterConcurrentRebalance ∧
      (Decider.clusterRebalance P.deciders q ≠ .yes ∨ ∀ c n k, ¬ Levels P.deciders q c n k) := by
  obtain ⟨⟨⟩, q, hrun, hbalances, hbalanced⟩ := (rebalance_leads hp).exists_ok fun hno => hno hsame
  have hnumber := Settings.threshold_ne_nan hset
  refine ⟨q, hrun, ?_, hbalances.relocating_le hp hlimit, ?_⟩
  · exact hbalances.mono_of_sound hp fun r ch hrun hr hfit hguard =>
      hguard.turn hr (hrun.frame.2.1 ▸ hnumber) hfit
  · rw [← nextMove?_eq_none_iff_levels (hbalances.sound hp) (hbalances.frame.2.1 ▸ hnumber)]
    exact Decidable.not_or_of_imp hbalanced

/-! ### The way to the rebalancer -/

/-- The phases of a pass before the rebalancer. -/
def beforeRebalance (ds : List Decider) (t : Trigger) : Phase (List CommandOutcome) := do
  intake t
  let outcomes ← executeAll ds t.commands
  allocateUnassigned ds
  replenishReplicas ds
  moveShards ds
  pure outcomes

theorem phases_eq_beforeRebalance (ds : List Decider) (t : Trigger) :
    Allocator.phases ds t = (do
      let outcomes ← beforeRebalance ds t
      rebalance ds
      pure outcomes) := by
  simp only [phases_eq_intake, placements, beforeRebalance, bind_assoc, pure_bind]

/-- The phases before the rebalancer leave a sound pass. -/
theorem beforeRebalance_leads (hp : p.Sound) :
    Leads (Decider.sameShard ∉ P.deciders) (beforeRebalance P.deciders P.trigger) p fun _ m =>
      m.Sound ∧ m.settings = p.settings := by
  refine (intake_leads P hp).bind ?_
  rintro - l ⟨m, hcompletes, hclears, -⟩
  have hl := hclears.sound (hcompletes.sound hp)
  have hsettings := hclears.frame.2.1.trans hcompletes.frame.2.1
  refine (executeAll_leads hl P.trigger (List.Subset.refl _)).bind fun outcomes k hk => ?_
  refine (allocateUnassigned_leads (P := P) (hk.sound hl)).bind ?_
  rintro - p₁ ⟨hallocate, -⟩
  have hp₁ := hallocate.sound (hk.sound hl)
  refine (replenishReplicas_leads (P := P) hp₁).bind ?_
  rintro - p₂ ⟨hreplenish, -⟩
  have hp₂ := hreplenish.sound hp₁
  refine (moveShards_leads (P := P) hp₂).bind ?_
  rintro - p₃ ⟨hmove, -⟩
  refine leads_pure ⟨hmove.sound hp₂, ?_⟩
  rw [hmove.frame.2.1, hreplenish.frame.2.1, hallocate.frame.2.1, hk.frame.2.1, hsettings]

end Pass

end ShardAllocation
