/-
Views that only grow.

The placing changes of a pass take no copy off its node: copies appear that are still being
filled, and started ones begin to move.  So whatever counts against one more copy on a node
can only become more: the copies that initialize there or move away from there, and the
replicas that are filled from there.  The active primaries stay where they are.

* `Layout.Grows` — one layout after another when copies only appear or begin to move;
* `View.Grown` — the same for views, with fewer slots that wait and no slot less;
* `incomingRecoveries_le`, `outgoingRecoveries_le`, `initializingPrimaries_le`,
  `countInState_initializing_le` — the counts that become more;
* `countInState_started_depart`, `countInState_relocating_depart` — what a move makes less and
  more;
* `Grown.activePrimary?_eq` — the nodes that replicas are filled from.
-/
import Mathlib.Data.List.Perm.Subperm
import ShardAllocation.Proofs.Routing.Sound

namespace ShardAllocation

/-- A count over a list without repetitions is at most a count that covers it. -/
theorem countP_le_countP_of_nodup {α : Type} {p q : α → Bool} {l k : List α} (hl : l.Nodup)
    (h : ∀ a ∈ l, p a = true → a ∈ k ∧ q a = true) : l.countP p ≤ k.countP q := by
  have hsub : l.filter p ⊆ k.filter q := fun a ha => by
    obtain ⟨hmem, hpa⟩ := List.mem_filter.mp ha
    exact List.mem_filter.mpr (h a hmem hpa)
  rw [List.countP_eq_length_filter, List.countP_eq_length_filter]
  exact ((hl.filter p).subperm hsub).length_le

namespace Layout

/-- Every copy stays where it is, though a started one may begin to move, and the copies that
appear are still being filled. -/
structure Grows (f g : Layout) : Prop where
  kept : ∀ {n c}, f n = some c →
    g n = some c ∨ c.state = .started ∧ ∃ m, g n = some (c.departing m)
  fresh : ∀ {n d}, f n = none → g n = some d → d.state = .initializing

variable {f g h : Layout} {n m : NodeId} {c d : Copy}

namespace Grows

theorem refl (f : Layout) : f.Grows f where
  kept := .inl
  fresh := fun hn hd => by
    rw [hn] at hd
    cases hd

/-- A copy that is not started stays as it is. -/
theorem kept_of_ne (h : f.Grows g) (hc : f n = some c) (hs : c.state ≠ .started) :
    g n = some c :=
  (h.kept hc).resolve_right fun hmoved => hs hmoved.1

theorem trans (hfg : f.Grows g) (hgh : g.Grows h) : f.Grows h where
  kept := by
    intro n c hc
    rcases hfg.kept hc with hg | ⟨hs, m, hg⟩
    · exact hgh.kept hg
    · have hmoving : (c.departing m).state ≠ .started := by simp [Copy.departing]
      exact .inr ⟨hs, m, hgh.kept_of_ne hg hmoving⟩
  fresh := by
    intro n d hn hd
    cases hg : g n with
    | none => exact hgh.fresh hg hd
    | some e =>
      have hinit := hfg.fresh hn hg
      have hsame := hgh.kept_of_ne hg (by simp [hinit])
      rw [hd, Option.some_inj] at hsame
      exact hsame ▸ hinit

/-- Where no copy is now, none was before. -/
theorem eq_none (h : f.Grows g) (hn : g n = none) : f n = none := by
  cases hf : f n with
  | none => rfl
  | some c =>
    rcases h.kept hf with hg | ⟨-, m, hg⟩ <;> rw [hn] at hg <;> cases hg

/-- A copy that is not being filled was there before, or was started before it moved. -/
theorem exists_before (h : f.Grows g) (hd : g n = some d) (hs : d.state ≠ .initializing) :
    ∃ c, f n = some c ∧ (d = c ∨ c.state = .started ∧ ∃ m, d = c.departing m) := by
  cases hf : f n with
  | none => exact absurd (h.fresh hf hd) hs
  | some c =>
    refine ⟨c, rfl, ?_⟩
    rcases h.kept hf with hg | ⟨hstarted, m, hg⟩
    · exact .inl (Option.some_inj.mp (hd.symm.trans hg))
    · exact .inr ⟨hstarted, m, Option.some_inj.mp (hd.symm.trans hg)⟩

/-- A started copy was started before. -/
theorem of_started (h : f.Grows g) (hd : g n = some d) (hs : d.state = .started) :
    f n = some d := by
  obtain ⟨c, hc, rfl | ⟨-, m, rfl⟩⟩ := h.exists_before hd (by simp [hs])
  · exact hc
  · simp [Copy.departing] at hs

theorem depart (hc : f n = some c) (hs : c.state = .started) (hm : f m = none) :
    f.Grows (f.depart n m c) where
  kept := by
    intro k d hd
    have hkm : k ≠ m := fun heq => by
      rw [heq, hm] at hd
      cases hd
    by_cases hk : k = n
    · subst hk
      obtain rfl : c = d := Option.some_inj.mp (hc.symm.trans hd)
      exact .inr ⟨hs, m, depart_eq_some.mpr (.inl ⟨rfl, rfl⟩)⟩
    · exact .inl (depart_eq_some.mpr (.inr (.inr ⟨hk, hkm, hd⟩)))
  fresh := by
    intro k d hk hd
    rcases depart_eq_some.mp hd with ⟨rfl, -⟩ | ⟨-, -, rfl⟩ | ⟨-, -, hd⟩
    · rw [hc] at hk
      cases hk
    · rfl
    · rw [hk] at hd
      cases hd

theorem fill (hn : f n = none) (hs : c.state = .initializing) : f.Grows (f.fill n c) where
  kept := by
    intro k d hd
    refine .inl (fill_eq_some.mpr (.inr ⟨fun heq => ?_, hd⟩))
    rw [heq, hn] at hd
    cases hd
  fresh := by
    intro k d hk hd
    rcases fill_eq_some.mp hd with ⟨-, rfl⟩ | ⟨-, hd⟩
    · exact hs
    · rw [hk] at hd
      cases hd

end Grows

end Layout

namespace View

variable {v w u : View} {s : ShardId} {n : NodeId} {c d : Copy} {m : Metadata}

/-- The view `w` comes after `v` when slots were only filled or added and started copies only
began to move. -/
structure Grown (v w : View) : Prop where
  live : w.live = v.live
  layout : ∀ s, Layout.Grows (v.copyOn? s) (w.copyOn? s)
  waiting : w.unassigned ⊆ v.unassigned
  slots : ∀ s, v.slotCount s ≤ w.slotCount s

namespace Grown

theorem refl (v : View) : v.Grown v :=
  ⟨rfl, fun _ => .refl _, List.Subset.refl _, fun _ => Nat.le_refl _⟩

theorem trans (h : v.Grown w) (h' : w.Grown u) : v.Grown u where
  live := h'.live.trans h.live
  layout := fun s => (h.layout s).trans (h'.layout s)
  waiting := List.Subset.trans h'.waiting h.waiting
  slots := fun s => Nat.le_trans (h.slots s) (h'.slots s)

theorem isLive_eq (h : v.Grown w) (n : NodeId) : w.isLive n = v.isLive n := by
  rw [isLive, h.live, isLive]

end Grown

theorem Consistent.grown_depart (h : v.Consistent) (hc : v.copyOn? c.shard n = some c)
    (hs : c.state = .started) {k : NodeId} (hk : v.copyOn? c.shard k = none) :
    v.Grown (v.depart n k c) where
  live := (sameFrame_depart v n k c).live
  layout := by
    intro t
    by_cases ht : t = c.shard
    · subst ht
      rw [layout_depart]
      exact .depart hc hs hk
    · rw [copyOn?_depart_of_ne ht]
      exact .refl _
  waiting := List.Subset.refl _
  slots := fun t => Nat.le_of_eq <| by
    rw [slotCount_eq, slotCount_eq, roleCount_depart h hc hs hk]

theorem Consistent.grown_occupy (h : v.Consistent) (hmem : c ∈ v.unassigned)
    (hn : v.copyOn? c.shard n = none) : v.Grown (v.occupy n c) where
  live := rfl
  layout := by
    intro t
    by_cases ht : t = c.shard
    · subst ht
      rw [layout_occupy]
      exact .fill hn rfl
    · rw [copyOn?_occupy_of_ne ht]
      exact .refl _
  waiting := List.erase_subset
  slots := fun t => Nat.le_of_eq <| by
    rw [slotCount_eq, slotCount_eq, roleCount_occupy h hmem hn]

/-- A slot that is created and filled at once. -/
theorem Consistent.grown_create (h : v.Consistent) (hs : c.state = .unassigned)
    (hn : v.copyOn? c.shard n = none) : v.Grown ((v.queue c).occupy n c) := by
  have hmem : c ∈ (v.queue c).unassigned :=
    List.mem_append_right _ (List.mem_singleton_self c)
  have hqueued : (v.queue c).Consistent := h.queue hs
  have hfilled := hqueued.grown_occupy (n := n) hmem hn
  refine ⟨hfilled.live, hfilled.layout, fun d hd => ?_, fun t => ?_⟩
  · have hperm : ((v.unassigned ++ [c]).erase c).Perm v.unassigned := by
      have herase := (List.perm_append_singleton c v.unassigned).erase c
      rwa [List.erase_cons_head] at herase
    exact hperm.subset hd
  · refine Nat.le_trans ?_ (hfilled.slots t)
    rw [slotCount_eq, slotCount_eq, roleCount_queue]
    exact Nat.le_add_right _ _

/-! ### Lists of copies without repetitions -/

theorem mem_values_heldOn (h : v.Consistent) :
    c ∈ (v.heldOn n).values ↔ v.copyOn? c.shard n = some c := by
  rw [SortedMap.mem_values_iff]
  constructor
  · rintro ⟨s, hs⟩
    rw [← copyOn?_eq] at hs
    exact (h.own hs).1 ▸ hs
  · intro hc
    exact ⟨c.shard, (copyOn?_eq v c.shard n).symm.trans hc⟩

theorem map_shard_values_heldOn (h : v.Consistent) (n : NodeId) :
    (v.heldOn n).values.map (·.shard) = (v.heldOn n).keys := by
  rw [SortedMap.values, SortedMap.keys, List.map_map]
  refine List.map_congr_left fun e he => ?_
  have hget : v.copyOn? e.1 n = some e.2 :=
    (copyOn?_eq v e.1 n).trans (SortedMap.mem_entries_iff.mp he)
  exact (h.own hget).1

theorem nodup_shard_values_heldOn (h : v.Consistent) (n : NodeId) :
    ((v.heldOn n).values.map (·.shard)).Nodup :=
  map_shard_values_heldOn h n ▸ (v.heldOn n).nodup_keys

theorem nodup_values_heldOn (h : v.Consistent) (n : NodeId) : (v.heldOn n).values.Nodup :=
  .of_map _ (nodup_shard_values_heldOn h n)

theorem nodup_copies (h : v.Consistent) (s : ShardId) : (v.copies s).Nodup := by
  rw [copies_eq]
  refine (v.holdersOf s).nodup_keys.filterMap fun k j c hk hj => ?_
  exact Option.some_inj.mp ((h.own hk).2.symm.trans (h.own hj).2)

theorem copies_of_node? {node : DataNode} (h : v.node? n = some node) :
    node.copies = (v.heldOn n).values := by
  obtain ⟨held, hget, rfl⟩ := Option.map_eq_some_iff.mp h
  rw [DataNode.copies, heldOn, hget, Option.getD_some]

theorem copies_of_mem_allNodes {node : DataNode} (h : node ∈ v.allNodes) :
    node.copies = (v.heldOn node.id).values := by
  obtain ⟨e, he, rfl⟩ := List.mem_map.mp h
  rw [DataNode.copies, heldOn, SortedMap.mem_entries_iff.mp he, Option.getD_some]

/-- The copies on all nodes are those that a lookup finds. -/
theorem mem_flatMap_allNodes (h : v.Consistent) :
    c ∈ v.allNodes.flatMap (·.copies) ↔ ∃ n, v.copyOn? c.shard n = some c := by
  rw [List.mem_flatMap]
  constructor
  · rintro ⟨node, hnode, hc⟩
    rw [copies_of_mem_allNodes hnode] at hc
    exact ⟨node.id, (mem_values_heldOn h).mp hc⟩
  · rintro ⟨n, hc⟩
    obtain ⟨held, hget, -⟩ := Option.bind_eq_some_iff.mp hc
    have hnode : DataNode.mk n held ∈ v.allNodes :=
      List.mem_map.mpr ⟨(n, held), SortedMap.mem_entries_iff.mpr hget, rfl⟩
    refine ⟨_, hnode, ?_⟩
    rw [copies_of_mem_allNodes hnode]
    exact (mem_values_heldOn h).mpr hc

theorem nodup_flatMap_allNodes (h : v.Consistent) : (v.allNodes.flatMap (·.copies)).Nodup := by
  rw [List.nodup_flatMap]
  constructor
  · intro node hnode
    rw [copies_of_mem_allNodes hnode]
    exact nodup_values_heldOn h node.id
  · -- a copy is on one node only
    have hids : v.allNodes.Pairwise fun a b => a.id ≠ b.id := by
      refine List.pairwise_map.mp ?_
      rw [allNodes, List.map_map]
      exact v.nodes.nodup_keys
    have hnode : ∀ {a}, a ∈ v.allNodes → ∀ {c}, c ∈ a.copies → c.node = some a.id := by
      intro a ha c hc
      rw [copies_of_mem_allNodes ha] at hc
      exact (h.own ((mem_values_heldOn h).mp hc)).2
    refine hids.imp_of_mem fun {a b} ha hb hne c hca hcb => hne ?_
    exact Option.some_inj.mp ((hnode ha hca).symm.trans (hnode hb hcb))

/-! ### Counts on a node -/

/-- A count over the copies on a node. -/
theorem node?_elim (v : View) (n : NodeId) (p : Copy → Bool) :
    (match v.node? n with
      | some node => node.copies.countP p
      | none => 0) = (v.heldOn n).values.countP p := by
  rw [node?, heldOn]
  cases v.nodes.get? n <;> rfl

theorem incomingRecoveries_eq (v : View) (n : NodeId) :
    v.incomingRecoveries n = (v.heldOn n).values.countP (·.isInitializing) :=
  v.node?_elim n (·.isInitializing)

theorem initializingPrimaries_eq (v : View) (n : NodeId) :
    v.initializingPrimaries n = (v.heldOn n).values.countP fun c =>
      c.primary && c.isInitializing && !c.isRelocationTarget :=
  v.node?_elim n fun c => c.primary && c.isInitializing && !c.isRelocationTarget

/-- The copies of the shards whose active primary is on the node. -/
def servedFrom (v : View) (n : NodeId) : List Copy :=
  ((v.heldOn n).values.filter fun c => c.primary && c.isActive).flatMap fun p => v.copies p.shard

theorem outgoingRecoveries_eq (v : View) (n : NodeId) :
    v.outgoingRecoveries n = (v.heldOn n).values.countP (·.isRelocating) +
      (v.servedFrom n).countP isRecoveringReplica := by
  rw [outgoingRecoveries, servedFrom, node?, heldOn]
  cases v.nodes.get? n <;> rfl

theorem mem_servedFrom (h : v.Consistent) : c ∈ v.servedFrom n ↔
    (∃ p, v.copyOn? c.shard n = some p ∧ p.primary = true ∧ p.isActive = true) ∧
      ∃ k, v.copyOn? c.shard k = some c := by
  simp only [servedFrom, List.mem_flatMap, List.mem_filter, Bool.and_eq_true,
    mem_values_heldOn h, mem_copies_iff h.indexed]
  constructor
  · rintro ⟨p, ⟨hp, hrole⟩, k, hk⟩
    have hshard := (h.own hk).1
    rw [hshard]
    exact ⟨⟨p, hp, hrole⟩, k, hk⟩
  · rintro ⟨⟨p, hp, hrole⟩, k, hk⟩
    have hshard := (h.own hp).1
    rw [← hshard] at hp hk
    exact ⟨p, ⟨hp, hrole⟩, k, hk⟩

theorem nodup_servedFrom (h : v.Consistent) (n : NodeId) : (v.servedFrom n).Nodup := by
  rw [servedFrom, List.nodup_flatMap]
  refine ⟨fun p _ => nodup_copies h p.shard, ?_⟩
  -- different copies on a node are of different shards
  have hshards : (v.heldOn n).values.Pairwise fun a b => a.shard ≠ b.shard :=
    List.pairwise_map.mp (nodup_shard_values_heldOn h n)
  refine (hshards.filter _).imp fun {a b} hne c hca hcb => hne ?_
  obtain ⟨k, hk⟩ := (mem_copies_iff h.indexed).mp hca
  obtain ⟨j, hj⟩ := (mem_copies_iff h.indexed).mp hcb
  exact (h.own hk).1.symm.trans (h.own hj).1

/-! ### The counts that become more -/

namespace Grown

/-- What counts copies on a node that are not started becomes more. -/
theorem countP_heldOn_le (h : v.Grown w) (hv : v.Consistent) (hw : w.Consistent)
    {p : Copy → Bool} (hp : ∀ c, p c = true → c.state ≠ .started) :
    (v.heldOn n).values.countP p ≤ (w.heldOn n).values.countP p := by
  refine countP_le_countP_of_nodup (nodup_values_heldOn hv n) fun c hc hpc => ⟨?_, hpc⟩
  have hkept := (h.layout c.shard).kept_of_ne ((mem_values_heldOn hv).mp hc) (hp c hpc)
  exact (mem_values_heldOn hw).mpr hkept

theorem incomingRecoveries_le (h : v.Grown w) (hv : v.Consistent) (hw : w.Consistent) :
    v.incomingRecoveries n ≤ w.incomingRecoveries n := by
  rw [incomingRecoveries_eq, incomingRecoveries_eq]
  exact h.countP_heldOn_le hv hw fun c hc => by
    rw [eq_of_beq hc]
    decide

theorem initializingPrimaries_le (h : v.Grown w) (hv : v.Consistent) (hw : w.Consistent) :
    v.initializingPrimaries n ≤ w.initializingPrimaries n := by
  rw [initializingPrimaries_eq, initializingPrimaries_eq]
  refine h.countP_heldOn_le hv hw fun c hc => ?_
  simp only [Bool.and_eq_true] at hc
  rw [eq_of_beq hc.1.2]
  decide

theorem outgoingRecoveries_le (h : v.Grown w) (hv : v.Consistent) (hw : w.Consistent) :
    v.outgoingRecoveries n ≤ w.outgoingRecoveries n := by
  rw [outgoingRecoveries_eq, outgoingRecoveries_eq]
  refine Nat.add_le_add (h.countP_heldOn_le hv hw fun c hc => ?_) ?_
  · rw [eq_of_beq hc]
    decide
  · refine countP_le_countP_of_nodup (nodup_servedFrom hv n) fun c hc hrecovering => ?_
    obtain ⟨⟨p, hp, hprim, hactive⟩, k, hk⟩ := (mem_servedFrom hv).mp hc
    have hinit : c.state ≠ .started := by
      simp only [isRecoveringReplica, Bool.and_eq_true] at hrecovering
      rw [eq_of_beq hrecovering.1.2]
      decide
    refine ⟨(mem_servedFrom hw).mpr ⟨?_, k, (h.layout c.shard).kept_of_ne hk hinit⟩, hrecovering⟩
    -- the primary is still there, though it may be about to move
    rcases (h.layout c.shard).kept hp with hsame | ⟨-, j, hmoved⟩
    · exact ⟨p, hsame, hprim, hactive⟩
    · exact ⟨p.departing j, hmoved, hprim, rfl⟩

theorem countInState_initializing_le (h : v.Grown w) (hv : v.Consistent) (hw : w.Consistent) :
    v.countInState .initializing ≤ w.countInState .initializing := by
  refine countP_le_countP_of_nodup (nodup_flatMap_allNodes hv) fun c hc hinit => ⟨?_, hinit⟩
  obtain ⟨n, hn⟩ := (mem_flatMap_allNodes hv).mp hc
  have hne : c.state ≠ .started := by
    rw [eq_of_beq hinit]
    decide
  exact (mem_flatMap_allNodes hw).mpr ⟨n, (h.layout c.shard).kept_of_ne hn hne⟩

end Grown

/-! ### Started copies -/

/-- The started copies on all nodes. -/
def startedCopies (v : View) : List Copy :=
  (v.allNodes.flatMap (·.copies)).filter fun c => c.state == .started

theorem length_startedCopies (v : View) : v.startedCopies.length = v.countInState .started :=
  List.countP_eq_length_filter.symm

theorem mem_startedCopies (h : v.Consistent) : c ∈ v.startedCopies ↔
    (∃ n, v.copyOn? c.shard n = some c) ∧ c.state = .started := by
  rw [startedCopies, List.mem_filter, mem_flatMap_allNodes h, beq_iff_eq]

/-- A move leaves one started copy less. -/
theorem countInState_started_depart (h : v.Consistent) (hc : v.copyOn? c.shard n = some c)
    (hs : c.state = .started) {k : NodeId} (hk : v.copyOn? c.shard k = none) :
    (v.depart n k c).countInState .started < v.countInState .started := by
  have hw := h.depart hc hs hk
  -- the copy itself is not among those that are still started
  have hfresh : c ∉ (v.depart n k c).startedCopies := by
    intro hstill
    obtain ⟨⟨j, hj⟩, -⟩ := (mem_startedCopies hw).mp hstill
    obtain rfl : n = j := Option.some_inj.mp ((h.own hc).2.symm.trans (hw.own hj).2)
    rw [layout_depart, Layout.depart, if_pos rfl, Option.some_inj] at hj
    rw [← hj] at hs
    cases hs
  have hsub : c :: (v.depart n k c).startedCopies ⊆ v.startedCopies := by
    intro d hd
    rcases List.mem_cons.mp hd with rfl | hd
    · exact (mem_startedCopies h).mpr ⟨⟨n, hc⟩, hs⟩
    · obtain ⟨⟨j, hj⟩, hstarted⟩ := (mem_startedCopies hw).mp hd
      have hgrown := (h.grown_depart hc hs hk).layout d.shard
      exact (mem_startedCopies h).mpr ⟨⟨j, hgrown.of_started hj hstarted⟩, hstarted⟩
  have hnodup := List.nodup_cons.mpr ⟨hfresh, (nodup_flatMap_allNodes hw).filter _⟩
  have hlength := (hnodup.subperm hsub).length_le
  rw [List.length_cons, length_startedCopies, length_startedCopies] at hlength
  exact hlength

/-- It leaves one more copy that moves. -/
theorem countInState_relocating_depart (h : v.Consistent) (hc : v.copyOn? c.shard n = some c)
    (hs : c.state = .started) {k : NodeId} (hk : v.copyOn? c.shard k = none) :
    (v.depart n k c).countInState .relocating ≤ v.countInState .relocating + 1 := by
  have hw := h.depart hc hs hk
  have hcovered : ∀ d ∈ (v.depart n k c).allNodes.flatMap (·.copies),
      (d.state == .relocating) = true →
        d ∈ c.departing k :: v.allNodes.flatMap (·.copies) ∧ (d.state == .relocating) = true := by
    intro d hd hrel
    refine ⟨List.mem_cons.mpr ?_, hrel⟩
    obtain ⟨j, hj⟩ := (mem_flatMap_allNodes hw).mp hd
    by_cases hshard : d.shard = c.shard
    · rw [hshard, layout_depart, Layout.depart_eq_some] at hj
      rcases hj with ⟨-, rfl⟩ | ⟨-, -, rfl⟩ | ⟨-, -, hj⟩
      · exact .inl rfl
      · cases hrel
      · exact .inr ((mem_flatMap_allNodes h).mpr ⟨j, hshard ▸ hj⟩)
    · rw [copyOn?_depart_of_ne hshard] at hj
      exact .inr ((mem_flatMap_allNodes h).mpr ⟨j, hj⟩)
  have hcount := countP_le_countP_of_nodup (nodup_flatMap_allNodes hw) hcovered
  rwa [List.countP_cons_of_pos rfl] at hcount

/-! ### Active primaries -/

theorem Sound.activePrimary?_eq_some_iff (h : v.Sound m) : v.activePrimary? s = some c ↔
    (∃ n, v.copyOn? s n = some c) ∧ c.primary = true ∧ c.isActive = true := by
  have hrole : ∀ {d}, v.primary? s = some d →
      (∃ k, v.copyOn? s k = some d) ∧ d.primary = true ∧ d.isRelocationTarget = false := by
    intro d hd
    have hfound := List.find?_some (p := fun c : Copy => c.primary && !c.isRelocationTarget) hd
    rw [Bool.and_eq_true, Bool.not_eq_true'] at hfound
    exact ⟨(mem_copies_iff h.consistent.indexed).mp (List.mem_of_find?_eq_some hd), hfound⟩
  rw [activePrimary?, Option.filter_eq_some_iff]
  constructor
  · rintro ⟨hc, hactive⟩
    exact ⟨(hrole hc).1, (hrole hc).2.1, hactive⟩
  · rintro ⟨⟨n, hn⟩, hprim, hactive⟩
    refine ⟨?_, hactive⟩
    have ht := Copy.isRelocationTarget_of_active hactive
    cases hd : v.primary? s with
    | none =>
      have hnone := List.find?_eq_none.mp hd c ((mem_copies_iff h.consistent.indexed).mpr ⟨n, hn⟩)
      simp [hprim, ht] at hnone
    | some d =>
      -- a shard has one primary only
      obtain ⟨⟨k, hk⟩, hdprim, hdt⟩ := hrole hd
      obtain rfl := h.primary_unique hn hk ht hdt hprim hdprim
      exact hk.symm.trans hn

/-- The active primary of a shard stays on its node, and no other one appears. -/
theorem Grown.activePrimary?_eq (h : v.Grown w) (hv : v.Sound m) (hw : w.Sound m)
    (s : ShardId) :
    (w.activePrimary? s).map (·.node) = (v.activePrimary? s).map (·.node) := by
  cases hv' : v.activePrimary? s with
  | some c =>
    obtain ⟨⟨n, hn⟩, hprim, hactive⟩ := hv.activePrimary?_eq_some_iff.mp hv'
    rcases (h.layout s).kept hn with hsame | ⟨-, k, hmoved⟩
    · rw [hw.activePrimary?_eq_some_iff.mpr ⟨⟨n, hsame⟩, hprim, hactive⟩]
    · rw [hw.activePrimary?_eq_some_iff.mpr ⟨⟨n, hmoved⟩, hprim, rfl⟩]
      rfl
  | none =>
    cases hw' : w.activePrimary? s with
    | none => rfl
    | some d =>
      obtain ⟨⟨n, hn⟩, hprim, hactive⟩ := hw.activePrimary?_eq_some_iff.mp hw'
      have hne : d.state ≠ .initializing := by
        rcases Copy.isActive_iff.mp hactive with hs | hs <;> simp [hs]
      -- an active copy was active before it began to move
      have hbefore : ∃ c, v.copyOn? s n = some c ∧ c.primary = true ∧ c.isActive = true := by
        obtain ⟨c, hc, rfl | ⟨hs, k, rfl⟩⟩ := (h.layout s).exists_before hn hne
        · exact ⟨d, hc, hprim, hactive⟩
        · exact ⟨c, hc, hprim, Copy.isActive_iff.mpr (.inl hs)⟩
      obtain ⟨c, hc, hrole⟩ := hbefore
      rw [hv.activePrimary?_eq_some_iff.mpr ⟨⟨n, hc⟩, hrole⟩] at hv'
      cases hv'

end View

end ShardAllocation
