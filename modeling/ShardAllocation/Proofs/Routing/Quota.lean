/-
What copies take of the limits on recoveries.

Four numbers have a limit: the copies that initialize in the whole cluster, and on each node
the fresh primaries that initialize, the other copies that initialize and the copies that move
away.  Each of them counts copies, and a copy counts by its state, its role and its node alone.

Whatever completes or clears copies makes none of the numbers larger.  The one step that could
is the promotion of a replica, for a primary may count where a replica does not; but only
active replicas are promoted, and of these and of the targets of their moves the role does not
matter.

* `Quota` — the numbers, with what counts (`Quota.counts`) and the limit (`Quota.limit`);
* `View.taken`, `RoutingTable.taken` — the numbers of a view and of a table;
* `View.taken_le_add` — a number grows by the places that are new at most;
* `View.Lighter` — no place counts that did not before;
* `View.taken_freshPrimaries`, `View.taken_recoveries_le`, `View.taken_departures_le` — the
  numbers and what the deciders look at;
* `View.Loaded.taken_eq` — a view has the numbers of the copies that it loads.
-/
import ShardAllocation.Proofs.Routing.Growth
import ShardAllocation.Proofs.Routing.Loading
import ShardAllocation.Settings

namespace ShardAllocation

/-- A primary that initializes and is not the target of a move. -/
def Copy.isFreshPrimary (c : Copy) : Bool :=
  c.primary && c.isInitializing && !c.isRelocationTarget

/-- A number of copies that has a limit. -/
inductive Quota where
  /-- The copies that initialize in the cluster. -/
  | initializing
  /-- The fresh primaries that initialize on a node. -/
  | freshPrimaries (n : NodeId)
  /-- The other copies that initialize on a node. -/
  | recoveries (n : NodeId)
  /-- The copies that move away from a node. -/
  | departures (n : NodeId)

namespace Quota

/-- Whether a copy counts. -/
def counts : Quota → Copy → Bool
  | initializing, c => c.isInitializing
  | freshPrimaries n, c => c.isFreshPrimary && c.node == some n
  | recoveries n, c => (c.isInitializing && !c.isFreshPrimary) && c.node == some n
  | departures n, c => c.isRelocating && c.node == some n

/-- The limit that the settings put on the number. -/
def limit (set : Settings) : Quota → Nat
  | initializing => set.clusterConcurrentRecoveries
  | freshPrimaries _ => set.nodeInitialPrimariesRecoveries
  | recoveries _ | departures _ => set.nodeConcurrentRecoveries

variable {quota : Quota} {c : Copy}

/-- A copy that counts is being filled or moves away. -/
theorem state_of_counts (h : quota.counts c = true) :
    c.state = .initializing ∨ c.state = .relocating := by
  cases quota <;>
    simp only [counts, Copy.isFreshPrimary, Copy.isInitializing, Copy.isRelocating,
      Bool.and_eq_true, beq_iff_eq] at h <;> tauto

theorem assigned_of_counts (h : quota.counts c = true) : c.state ≠ .unassigned := by
  rcases state_of_counts h with hs | hs <;> rw [hs] <;> decide

theorem counts_of_started (h : c.state = .started) : quota.counts c = false := by
  by_contra hcounts
  rcases state_of_counts (Bool.not_eq_false _ ▸ hcounts) with hs | hs <;> rw [h] at hs <;> cases hs

/-- The two halves of a move do not count for the same number. -/
theorem counts_departing_of_arriving {k : NodeId} (h : quota.counts (c.arriving k) = true) :
    quota.counts (c.departing k) = false := by
  cases quota with
  | departures n => simp [counts, Copy.arriving, Copy.isRelocating] at h
  | _ => simp [counts, Copy.departing, Copy.isFreshPrimary, Copy.isInitializing]

/-- The role matters for neither active copies nor the targets of moves. -/
theorem counts_asPrimary (h : c.isActive = true ∨ c.isRelocationTarget = true) :
    quota.counts c.asPrimary = quota.counts c := by
  have hfresh : ∀ d : Copy, d.isActive = true ∨ d.isRelocationTarget = true →
      d.isFreshPrimary = false := by
    intro d hd
    rcases hd with hactive | ht
    · rcases Copy.isActive_iff.mp hactive with hs | hs <;>
        simp [Copy.isFreshPrimary, Copy.isInitializing, hs]
    · simp [Copy.isFreshPrimary, ht]
  have hprimary : c.asPrimary.isFreshPrimary = false := hfresh c.asPrimary h
  cases quota with
  | initializing | departures n => rfl
  | freshPrimaries n =>
    simp only [counts, hprimary, hfresh c h]
    rfl
  | recoveries n =>
    simp only [counts, hprimary, hfresh c h]
    rfl

end Quota

/-! ### Layouts -/

namespace Layout

/-- No place counts that did not before. -/
def Lighter (f g : Layout) : Prop := ∀ (n : NodeId) (d : Copy) (quota : Quota),
  g n = some d → quota.counts d = true → ∃ c, f n = some c ∧ quota.counts c = true

variable {s : ShardId} {f g h : Layout} {n : NodeId} {c : Copy}

namespace Lighter

theorem refl (f : Layout) : f.Lighter f := fun _ d _ hd hcounts => ⟨d, hd, hcounts⟩

theorem trans (hfg : f.Lighter g) (hgh : g.Lighter h) : f.Lighter h := by
  intro n d quota hd hcounts
  obtain ⟨c, hc, hcounts⟩ := hgh n d quota hd hcounts
  exact hfg n c quota hc hcounts

theorem settle (f : Layout) (n : NodeId) (c : Copy) : f.Lighter (f.settle n c) := by
  intro k d quota hd hcounts
  rcases settle_eq_some.mp hd with ⟨-, rfl⟩ | ⟨-, -, hd⟩
  · rw [Quota.counts_of_started rfl] at hcounts
    cases hcounts
  · exact ⟨d, hd, hcounts⟩

theorem vacate (f : Layout) (n : NodeId) (c : Copy) : f.Lighter (f.vacate n c) :=
  fun _ d _ hd hcounts => ⟨d, (vacate_eq_some.mp hd).2.2, hcounts⟩

/-- An active copy counts as before when it is promoted, and so does the target of its move. -/
theorem promote (hf : Linked s f) (hc : f n = some c) (hactive : c.isActive = true) :
    f.Lighter (f.promote n c) := by
  intro k d quota hd hcounts
  obtain ⟨e, he, rfl⟩ := promote_eq_some.mp hd
  refine ⟨e, he, ?_⟩
  split at hcounts
  next hk =>
    rw [Quota.counts_asPrimary] at hcounts
    · exact hcounts
    · rcases hk with rfl | hp
      · rw [hc, Option.some_inj] at he
        exact .inl (he ▸ hactive)
      · have ht := hf.isRelocationTarget_peer hc hp he
        rw [Copy.isRelocationTarget_of_active hactive] at ht
        exact .inr ht
  next => exact hcounts

end Lighter

end Layout

/-! ### Views -/

namespace View

variable {v w u : View} {s : ShardId} {n : NodeId} {c d : Copy} {quota : Quota}

/-- A number of a view. -/
def taken (v : View) (quota : Quota) : Nat := (v.allNodes.flatMap (·.copies)).countP quota.counts

/-- On a node there is one copy of a shard at most. -/
theorem nodup_places (h : v.Consistent) :
    ((v.allNodes.flatMap (·.copies)).map fun c => (c.shard, c.node)).Nodup := by
  refine (nodup_flatMap_allNodes h).map_on fun c hc d hd heq => ?_
  obtain ⟨hshard, hnode⟩ := Prod.mk.inj heq
  obtain ⟨n, hn⟩ := (mem_flatMap_allNodes h).mp hc
  obtain ⟨k, hk⟩ := (mem_flatMap_allNodes h).mp hd
  rw [(h.own hn).2, (h.own hk).2, Option.some_inj] at hnode
  rw [hnode, hshard, hk, Option.some_inj] at hn
  exact hn.symm

/-- A number grows by the places that did not count before, at most. -/
theorem taken_le_add (hv : v.Consistent) (hw : w.Consistent) {extra : List (ShardId × NodeId)}
    (h : ∀ s n d, w.copyOn? s n = some d → quota.counts d = true →
      (s, n) ∈ extra ∨ ∃ c, v.copyOn? s n = some c ∧ quota.counts c = true) :
    w.taken quota ≤ v.taken quota + extra.length := by
  let place : Copy → ShardId × Option NodeId := fun c => (c.shard, c.node)
  have hsub : ((w.allNodes.flatMap (·.copies)).filter quota.counts).map place ⊆
      extra.map (fun e => (e.1, some e.2)) ++
        ((v.allNodes.flatMap (·.copies)).filter quota.counts).map place := by
    intro e he
    obtain ⟨d, hd, rfl⟩ := List.mem_map.mp he
    obtain ⟨hmem, hcounts⟩ := List.mem_filter.mp hd
    obtain ⟨n, hn⟩ := (mem_flatMap_allNodes hw).mp hmem
    have hplace : place d = (d.shard, some n) := by rw [← (hw.own hn).2]
    rw [hplace]
    rcases h _ _ _ hn hcounts with hextra | ⟨c, hc, hcounts⟩
    · exact List.mem_append_left _ (List.mem_map.mpr ⟨(d.shard, n), hextra, rfl⟩)
    · obtain ⟨hshard, hnode⟩ := hv.own hc
      refine List.mem_append_right _ (List.mem_map.mpr ⟨c, ?_, Prod.ext hshard hnode⟩)
      exact List.mem_filter.mpr
        ⟨(mem_flatMap_allNodes hv).mpr ⟨n, by rw [hshard]; exact hc⟩, hcounts⟩
  have hnodup : (((w.allNodes.flatMap (·.copies)).filter quota.counts).map place).Nodup :=
    (List.filter_sublist.map place).nodup (nodup_places hw)
  have hlength := (hnodup.subperm hsub).length_le
  rw [List.length_append, List.length_map, List.length_map, List.length_map] at hlength
  rw [taken, taken, List.countP_eq_length_filter, List.countP_eq_length_filter, Nat.add_comm]
  exact hlength

/-- A slot that is filled takes one of each number that the copy counts for. -/
theorem taken_occupy_le (h : v.Consistent) (hn : v.copyOn? c.shard n = none) (quota : Quota) :
    (v.occupy n c).taken quota ≤ v.taken quota + (quota.counts (c.placedOn n)).toNat := by
  let extra := if quota.counts (c.placedOn n) then [(c.shard, n)] else []
  have hlength : extra.length = (quota.counts (c.placedOn n)).toNat := by
    cases hcounts : quota.counts (c.placedOn n) <;> simp [extra, hcounts]
  rw [← hlength]
  refine taken_le_add h (h.occupy hn) fun s k d hd hcounts => ?_
  by_cases hs : s = c.shard
  · subst hs
    rw [layout_occupy, Layout.fill_eq_some] at hd
    rcases hd with ⟨rfl, rfl⟩ | ⟨-, hd⟩
    · exact .inl (by simp [extra, hcounts])
    · exact .inr ⟨d, hd, hcounts⟩
  · rw [copyOn?_occupy_of_ne hs] at hd
    exact .inr ⟨d, hd, hcounts⟩

/-- A move that begins takes one of each number that one of its halves counts for. -/
theorem taken_depart_le (h : v.Consistent) (hc : v.copyOn? c.shard n = some c)
    (hs : c.state = .started) {k : NodeId} (hk : v.copyOn? c.shard k = none) (quota : Quota) :
    (v.depart n k c).taken quota ≤ v.taken quota +
      (quota.counts (c.departing k) || quota.counts (c.arriving k)).toNat := by
  let extra := if quota.counts (c.departing k) then [(c.shard, n)]
    else if quota.counts (c.arriving k) then [(c.shard, k)] else []
  have hlength : extra.length =
      (quota.counts (c.departing k) || quota.counts (c.arriving k)).toNat := by
    cases hout : quota.counts (c.departing k) <;> cases hin : quota.counts (c.arriving k) <;>
      simp [extra, hout, hin]
  rw [← hlength]
  refine taken_le_add h (h.depart hc hs hk) fun s j d hd hcounts => ?_
  by_cases hs : s = c.shard
  · subst hs
    rw [layout_depart, Layout.depart_eq_some] at hd
    rcases hd with ⟨rfl, rfl⟩ | ⟨-, rfl, rfl⟩ | ⟨-, -, hd⟩
    · exact .inl (by simp [extra, hcounts])
    · exact .inl (by simp [extra, hcounts, Quota.counts_departing_of_arriving hcounts])
    · exact .inr ⟨d, hd, hcounts⟩
  · rw [copyOn?_depart_of_ne hs] at hd
    exact .inr ⟨d, hd, hcounts⟩

/-- No place counts that did not before. -/
def Lighter (v w : View) : Prop := ∀ s, Layout.Lighter (v.copyOn? s) (w.copyOn? s)

namespace Lighter

theorem refl (v : View) : v.Lighter v := fun s => Layout.Lighter.refl (v.copyOn? s)

theorem trans (h : v.Lighter w) (h' : w.Lighter u) : v.Lighter u :=
  fun s => Layout.Lighter.trans (h s) (h' s)

theorem taken_le (h : v.Lighter w) (hv : v.Consistent) (hw : w.Consistent) (quota : Quota) :
    w.taken quota ≤ v.taken quota := by
  have hnone : ∀ s n d, w.copyOn? s n = some d → quota.counts d = true →
      (s, n) ∈ ([] : List (ShardId × NodeId)) ∨
        ∃ c, v.copyOn? s n = some c ∧ quota.counts c = true :=
    fun s n d hd hcounts => .inr (h s n d quota hd hcounts)
  exact taken_le_add hv hw hnone

/-- Only one shard is different. -/
theorem of_layout (h : Layout.Lighter (v.copyOn? s) (w.copyOn? s))
    (hothers : ∀ t, t ≠ s → w.copyOn? t = v.copyOn? t) : v.Lighter w := by
  intro t
  by_cases ht : t = s
  · exact ht ▸ h
  · rw [hothers t ht]
    exact .refl _

theorem settle (v : View) (n : NodeId) (c : Copy) : v.Lighter (v.settle n c) := by
  refine of_layout (s := c.shard) ?_ fun t ht => copyOn?_settle_of_ne ht
  rw [layout_settle]
  exact Layout.Lighter.settle _ n c

theorem vacate (v : View) (n : NodeId) (c : Copy) : v.Lighter (v.vacate n c) := by
  refine of_layout (s := c.shard) ?_ fun t ht => copyOn?_vacate_of_ne ht
  rw [layout_vacate]
  exact Layout.Lighter.vacate _ n c

theorem takeOver (h : v.Consistent) (s : ShardId) : v.Lighter (v.takeOver s) := by
  rcases takeOver_cases h s with ⟨-, heq⟩ | ⟨r, n, -, -, hr, -, hactive, -, heq⟩
  · rw [heq]
    exact refl v
  · rw [heq]
    have hpromoted : v.Lighter (v.promote n r) := by
      refine of_layout (s := r.shard) ?_ fun t ht => copyOn?_promote_of_ne (h.linked _) ht
      rw [layout_promote (h.linked _) hr]
      exact Layout.Lighter.promote (h.linked _) hr hactive
    exact hpromoted

theorem forget (h : ∀ s, v.copyOn? s n = none) : v.Lighter (v.forget n) := fun s => by
  rw [copyOn?_forget_of_empty h]
  exact Layout.Lighter.refl _

end Lighter

/-! ### What the deciders look at -/

theorem countInState_initializing (v : View) :
    v.countInState .initializing = v.taken .initializing := rfl

/-- The copies on a node are those of the view that name the node. -/
theorem countP_heldOn (h : v.Consistent) (n : NodeId) (p : Copy → Bool) :
    (v.heldOn n).values.countP p =
      (v.allNodes.flatMap (·.copies)).countP fun c => p c && c.node == some n := by
  refine Nat.le_antisymm (countP_le_countP_of_nodup (nodup_values_heldOn h n) ?_)
    (countP_le_countP_of_nodup (nodup_flatMap_allNodes h) ?_)
  · intro c hc hp
    have hn := (mem_values_heldOn h).mp hc
    exact ⟨(mem_flatMap_allNodes h).mpr ⟨n, hn⟩, by simp [hp, (h.own hn).2]⟩
  · intro c hc hp
    simp only [Bool.and_eq_true, beq_iff_eq] at hp
    obtain ⟨k, hk⟩ := (mem_flatMap_allNodes h).mp hc
    rw [(h.own hk).2, Option.some_inj] at hp
    exact ⟨(mem_values_heldOn h).mpr (hp.2 ▸ hk), hp.1⟩

theorem taken_freshPrimaries (h : v.Consistent) (n : NodeId) :
    v.taken (.freshPrimaries n) = v.initializingPrimaries n := by
  rw [initializingPrimaries_eq, countP_heldOn h]
  rfl

/-- The fresh primaries on a node come on top of the other copies that initialize there. -/
theorem taken_recoveries_le (h : v.Consistent) (n : NodeId) :
    v.taken (.recoveries n) ≤ v.incomingRecoveries n := by
  rw [incomingRecoveries_eq, countP_heldOn h]
  refine List.countP_mono_left fun c _ hc => ?_
  simp only [Quota.counts, Bool.and_eq_true] at hc ⊢
  exact ⟨hc.1.1, hc.2⟩

/-- A node is read by the copies that move away and by those that are filled from it. -/
theorem taken_departures_le (h : v.Consistent) (n : NodeId) :
    v.taken (.departures n) ≤ v.outgoingRecoveries n := by
  rw [outgoingRecoveries_eq, countP_heldOn h]
  exact Nat.le_add_right _ _

end View

/-! ### Tables -/

/-- A stored copy, and the target of its move. -/
def Copy.withTarget (c : Copy) : List Copy := c :: c.relocationTarget?.toList

/-- A number of a table, with the targets of moves. -/
def RoutingTable.taken (table : RoutingTable) (quota : Quota) : Nat :=
  (table.copies.flatMap (·.withTarget)).countP quota.counts

variable {c d : Copy} {copies others : List Copy} {members : List NodeId} {v : View}
variable {quota : Quota}

/-- Both halves of a move name their nodes. -/
theorem Copy.Stored.mem_withTarget_iff (h : c.Stored) (hs : d.state ≠ .unassigned) :
    d ∈ c.withTarget ↔ ∃ n, d.node = some n ∧
      (c.node = some n ∧ d = c ∨ c.peer = some n ∧ c.relocationTarget? = some d) := by
  rw [withTarget, List.mem_cons, Option.mem_toList]
  constructor
  · rintro (rfl | ht)
    · obtain ⟨n, hn⟩ := h.exists_node hs
      exact ⟨n, hn, .inl ⟨hn, rfl⟩⟩
    · obtain ⟨hrel, rfl⟩ := relocationTarget?_eq_some_iff.mp ht
      obtain ⟨n, hn⟩ := Option.isSome_iff_exists.mp ((stored_iff.mp h).1.peer_isSome hrel)
      exact ⟨n, hn, .inr ⟨hn, ht⟩⟩
  · rintro ⟨n, -, ⟨-, rfl⟩ | ⟨-, ht⟩⟩
    · exact .inl rfl
    · exact .inr ht

theorem Copy.nodup_withTarget (c : Copy) : c.withTarget.Nodup := by
  rw [withTarget, List.nodup_cons]
  refine ⟨fun hmem => ?_, by cases c.relocationTarget? <;> simp⟩
  obtain ⟨hrel, heq⟩ := relocationTarget?_eq_some_iff.mp (Option.mem_toList.mp hmem)
  rw [heq] at hrel
  cases hrel

theorem Copy.shard_of_mem_withTarget (h : d ∈ c.withTarget) : d.shard = c.shard := by
  rcases List.mem_cons.mp h with rfl | ht
  · rfl
  · obtain ⟨-, rfl⟩ := relocationTarget?_eq_some_iff.mp (Option.mem_toList.mp ht)
    rfl

namespace View

/-- No copy counts twice. -/
theorem Loadable.nodup_filter (h : Loadable copies) (quota : Quota) :
    ((copies.flatMap (·.withTarget)).filter quota.counts).Nodup := by
  rw [List.filter_flatMap, List.nodup_flatMap]
  refine ⟨fun c _ => c.nodup_withTarget.filter _, ?_⟩
  refine h.apart.imp_of_mem fun {c d} hc hd happart x hxc hxd => ?_
  obtain ⟨hxc, hcounts⟩ := List.mem_filter.mp hxc
  obtain ⟨hxd, -⟩ := List.mem_filter.mp hxd
  have hassigned := Quota.assigned_of_counts hcounts
  -- the two stored copies would be of one shard and on the same node
  have hshard : c.shard = d.shard :=
    (Copy.shard_of_mem_withTarget hxc).symm.trans (Copy.shard_of_mem_withTarget hxd)
  obtain ⟨n, hn, hatc⟩ := ((h.stored c hc).mem_withTarget_iff hassigned).mp hxc
  obtain ⟨k, hk, hatd⟩ := ((h.stored d hd).mem_withTarget_iff hassigned).mp hxd
  obtain rfl : n = k := Option.some_inj.mp (hn.symm.trans hk)
  exact happart hshard (Copy.mem_nodes.mpr (hatc.imp And.left And.left))
    (Copy.mem_nodes.mpr (hatd.imp And.left And.left))

/-- The view that loads some copies has their numbers. -/
theorem Loaded.taken_eq (h : Loaded members copies v) (hcopies : Loadable copies)
    (quota : Quota) :
    (copies.flatMap (·.withTarget)).countP quota.counts = v.taken quota := by
  rw [taken, List.countP_eq_length_filter, List.countP_eq_length_filter]
  refine List.Perm.length_eq ?_
  refine (List.perm_ext_iff_of_nodup (hcopies.nodup_filter quota)
    ((nodup_flatMap_allNodes h.consistent).filter _)).mpr fun d => ?_
  rw [List.mem_filter, List.mem_filter, mem_flatMap_allNodes h.consistent]
  refine and_congr_left fun hcounts => ?_
  have hassigned := Quota.assigned_of_counts hcounts
  simp only [List.mem_flatMap, h.copyOn?_iff]
  constructor
  · rintro ⟨c, hc, hd⟩
    obtain ⟨n, -, hat⟩ := ((hcopies.stored c hc).mem_withTarget_iff hassigned).mp hd
    exact ⟨n, c, hc, (Copy.shard_of_mem_withTarget hd).symm, hat⟩
  · rintro ⟨n, c, hc, hshard, hat⟩
    have hcopy := (h.copyOn?_iff d.shard n d).mpr ⟨c, hc, hshard, hat⟩
    exact ⟨c, hc, ((hcopies.stored c hc).mem_withTarget_iff hassigned).mpr
      ⟨n, (h.consistent.own hcopy).2, hat⟩⟩

/-- Copies that went and slots that were added make no number larger. -/
theorem Loadable.countP_le (h : Loadable others)
    (hsub : ∀ c ∈ others, c ∈ copies ∨ c.state = .unassigned) (quota : Quota) :
    (others.flatMap (·.withTarget)).countP quota.counts ≤
      (copies.flatMap (·.withTarget)).countP quota.counts := by
  rw [List.countP_eq_length_filter, List.countP_eq_length_filter]
  refine ((h.nodup_filter quota).subperm fun d hd => ?_).length_le
  obtain ⟨hmem, hcounts⟩ := List.mem_filter.mp hd
  obtain ⟨c, hc, hdc⟩ := List.mem_flatMap.mp hmem
  refine List.mem_filter.mpr ⟨List.mem_flatMap.mpr ⟨c, ?_, hdc⟩, hcounts⟩
  refine (hsub c hc).resolve_right fun hwaits => ?_
  -- a slot that waits is alone, and does not count
  have hnone : c.relocationTarget? = none := by
    simp [Copy.relocationTarget?, Copy.isRelocating, hwaits]
  rw [Copy.withTarget, hnone] at hdc
  obtain rfl := List.mem_singleton.mp hdc
  exact Quota.assigned_of_counts hcounts hwaits

end View

end ShardAllocation
