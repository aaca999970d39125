/-
From a sound view back to a table.

The frozen table has every declared index with the slots of its shards, in the order of
their numbers.  The slots are the copies on nodes that are no targets of moves, and the
slots that wait.  A sound view that knows members only passes the check before it is frozen.

* `get?_freeze` — the indices of the frozen table;
* `mem_slots_iff`, `countP_slots` — the slots of a shard;
* `Sound.nodup_nodes_slots` — no node occurs twice among them, moves included;
* `Sound.validate_eq` — the check.
-/
import Mathlib.Data.List.Flatten
import ShardAllocation.Proofs.Routing.Sound

namespace ShardAllocation

/-- The nodes of two copies of a shard are apart, if neither is the target of a move. -/
theorem Layout.Linked.disjoint_nodes {s : ShardId} {f : Layout} (h : Layout.Linked s f)
    {n k : NodeId} {c d : Copy} (hc : f n = some c) (hd : f k = some d) (hne : n ≠ k)
    (htc : c.isRelocationTarget = false) (htd : d.isRelocationTarget = false) :
    c.nodes.Disjoint d.nodes := by
  -- the other half of a copy that is no target is a target
  have hapart : ∀ {i j : NodeId} {a b : Copy}, f i = some a → f j = some b →
      a.isRelocationTarget = false → b.isRelocationTarget = false → a.peer ≠ some j := by
    intro i j a b ha hb hta htb hp
    have hother := h.isRelocationTarget_peer ha hp hb
    rw [hta, htb] at hother
    cases hother
  intro j hjc hjd
  rw [Copy.mem_nodes, (h.own hc).2, Option.some_inj] at hjc
  rw [Copy.mem_nodes, (h.own hd).2, Option.some_inj] at hjd
  rcases hjc with rfl | hpc
  · rcases hjd with hjd | hpd
    · exact hne hjd.symm
    · exact hapart hd hc htd htc hpd
  · rcases hjd with rfl | hpd
    · exact hapart hc hd htc htd hpc
    · -- a node is the other end of one move only
      obtain ⟨e, he, hback, -⟩ := h.exists_peer hc hpc
      have hback' := h.peer_eq he hd hpd
      rw [hback, Option.some_inj] at hback'
      exact hne hback'

namespace View

variable {v : View} {s : ShardId} {n : NodeId} {c : Copy} {metadata : Metadata}

/-! ### The slots of a shard -/

theorem primariesFirst_perm (copies : List Copy) : (primariesFirst copies).Perm copies :=
  List.filter_append_perm ..

theorem slots_perm (v : View) (s : ShardId) :
    (v.slots s).Perm ((v.copies s).filter (!·.isRelocationTarget) ++ v.unassignedOf s) :=
  (primariesFirst_perm _).append (primariesFirst_perm _)

theorem mem_slots_iff (h : v.Indexed) :
    c ∈ v.slots s ↔ (∃ n, v.copyOn? s n = some c) ∧ c.isRelocationTarget = false ∨
      c ∈ v.unassigned ∧ c.shard = s := by
  rw [(slots_perm v s).mem_iff, List.mem_append, List.mem_filter, mem_copies_iff h,
    mem_unassignedOf, Bool.not_eq_true']

theorem countP_slots (v : View) (s : ShardId) (q : Bool → Bool) :
    (v.slots s).countP (fun c => q c.primary) = v.roleCount s q := by
  rw [(slots_perm v s).countP_eq, List.countP_append, roleCount]
  congr 1
  · rw [List.countP_filter, assignedCount]
    exact List.countP_congr fun c _ => by rw [Copy.isSlotOf, Bool.and_comm]
  · rw [unassignedOf, List.countP_filter, waitingCount]
    exact List.countP_congr fun c _ => by rw [Bool.and_comm]

theorem length_slots (v : View) (s : ShardId) : (v.slots s).length = v.slotCount s := by
  rw [(slots_perm v s).length_eq, List.length_append, slotCount, List.countP_eq_length_filter]

namespace Sound

theorem shard_of_mem_slots (h : v.Sound metadata) (hc : c ∈ v.slots s) : c.shard = s := by
  rcases (mem_slots_iff h.consistent.indexed).mp hc with ⟨⟨n, hn⟩, -⟩ | ⟨-, hs⟩
  · exact (h.consistent.own hn).1
  · exact hs

theorem stored_of_mem_slots (h : v.Sound metadata) (hc : c ∈ v.slots s) : c.Stored := by
  rw [Copy.stored_iff]
  rcases (mem_slots_iff h.consistent.indexed).mp hc with ⟨⟨n, hn⟩, ht⟩ | ⟨hwait, -⟩
  · exact ⟨h.shaped.held hn, ht⟩
  · have hs := h.consistent.waiting c hwait
    exact ⟨h.shaped.waiting c hwait, by simp [Copy.isRelocationTarget, Copy.isInitializing, hs]⟩

theorem nodup_nodes_slots (h : v.Sound metadata) (s : ShardId) :
    ((v.slots s).flatMap Copy.nodes).Nodup := by
  -- a slot that waits is on no node
  have hwait : (v.unassignedOf s).flatMap Copy.nodes = [] := by
    refine List.flatMap_eq_nil_iff.mpr fun c hc => ?_
    have hmem := (mem_unassignedOf.mp hc).1
    have hstate := h.consistent.waiting c hmem
    have hshaped := h.shaped.waiting c hmem
    have hnode : c.node = none := by
      have hsome := mt hshaped.node_isSome.mp (not_not_intro hstate)
      simpa using hsome
    have hpeer : c.peer = none := by
      by_contra hp
      rcases hshaped.state_of_peer (Option.isSome_iff_ne_none.mpr hp) with hs | hs <;>
        rw [hstate] at hs <;> cases hs
    rw [Copy.nodes, hnode, hpeer]
    rfl
  rw [((slots_perm v s).flatMap_right _).nodup_iff, List.flatMap_append, hwait, List.append_nil,
    List.nodup_flatMap]
  constructor
  · -- the two ends of a move are different nodes
    intro c hc
    obtain ⟨n, hn⟩ := (mem_copies_iff h.consistent.indexed).mp (List.mem_filter.mp hc).1
    have hne := (h.shaped.held hn).peer_ne_node
    cases hp : c.peer with
    | none => cases hk : c.node <;> simp [Copy.nodes, hp, hk]
    | some m =>
      rw [hp, (h.consistent.own hn).2] at hne
      have hnm : n ≠ m := fun heq => hne rfl (by rw [heq])
      simp [Copy.nodes, hp, (h.consistent.own hn).2, hnm]
  · rw [List.pairwise_filter, copies_eq, List.pairwise_filterMap]
    refine (v.holdersOf s).nodup_keys.imp ?_
    intro n k hne c hc d hd htc htd
    exact (h.consistent.linked s).disjoint_nodes hc hd hne (by simpa using htc) (by simpa using htd)

end Sound

/-! ### The frozen table -/

/-- The table of an index as the view has it. -/
def frozen (v : View) (m : IndexMetadata) : IndexTable :=
  { index := m.name
    shards := m.shardIds.map fun shard => { shard, copies := v.slots shard } }

theorem freezeIndex_eq {earlier : List IndexMetadata} {m : IndexMetadata}
    (h : ∀ e ∈ earlier, e.name ≠ m.name) : v.freezeIndex earlier m = v.frozen m := by
  rw [freezeIndex, frozen]
  congr 1
  refine List.map_congr_left fun s hs => ?_
  obtain ⟨i, -, rfl⟩ := List.mem_map.mp hs
  -- another name takes no shard of this index
  have htaken : (earlier.any fun e => e.name == m.name && decide (i < e.shards)) = false := by
    rw [List.any_eq_false]
    intro e he
    simp [h e he]
  simp only [htaken]
  rfl

theorem get?_freezeAll (table : RoutingTable) {earlier rest : List IndexMetadata}
    (h : ((earlier ++ rest).map (·.name)).Nodup) :
    (∀ m ∈ rest, (v.freezeAll earlier table rest).get? m.name = some (v.frozen m)) ∧
      ∀ name, (∀ m ∈ rest, m.name ≠ name) →
        (v.freezeAll earlier table rest).get? name = table.get? name := by
  induction rest generalizing earlier table with
  | nil => exact ⟨fun _ hm => absurd hm List.not_mem_nil, fun _ _ => rfl⟩
  | cons m rest ih =>
    have hsplit : earlier ++ m :: rest = earlier ++ [m] ++ rest := by simp
    have hnodup := h
    rw [List.map_append, List.nodup_append] at hnodup
    obtain ⟨-, hrest, hearlier⟩ := hnodup
    rw [hsplit] at h
    have hfirst : v.freezeIndex earlier m = v.frozen m := freezeIndex_eq fun e he =>
      hearlier _ (List.mem_map_of_mem he) _ (List.mem_map_of_mem List.mem_cons_self)
    have hlater : ∀ k ∈ rest, k.name ≠ m.name := fun k hk heq =>
      (List.nodup_cons.mp hrest).1 (List.mem_map.mpr ⟨k, hk, heq⟩)
    obtain ⟨hmem, hother⟩ := ih (table.insert m.name (v.freezeIndex earlier m)) h
    -- no later index has the name of this one, so its table stays
    constructor
    · intro k hk
      rcases List.mem_cons.mp hk with rfl | hk
      · rw [freezeAll, hother k.name hlater, SortedMap.get?_insert_self, hfirst]
      · exact hmem k hk
    · intro name hname
      rw [freezeAll, hother name fun k hk => hname k (List.mem_cons_of_mem m hk),
        SortedMap.get?_insert_of_ne _ (hname m List.mem_cons_self).symm]

/-- The frozen table has the declared indices, and no other. -/
theorem get?_freeze (hkeyed : ∀ {name m}, metadata.get? name = some m → m.name = name)
    (name : String) : (v.freeze metadata).get? name = (metadata.get? name).map v.frozen := by
  have hnames : metadata.values.map (·.name) = metadata.keys := by
    rw [SortedMap.values, SortedMap.keys, List.map_map]
    exact List.map_congr_left fun e he => hkeyed (SortedMap.mem_entries_iff.mp he)
  have hnodup : (([] ++ metadata.values).map IndexMetadata.name).Nodup := by
    rw [List.nil_append, hnames]
    exact metadata.nodup_keys
  obtain ⟨hmem, hother⟩ := get?_freezeAll (v := v) SortedMap.empty hnodup
  cases hm : metadata.get? name with
  | none =>
    refine hother name fun m hvalue heq => ?_
    obtain ⟨k, hk⟩ := SortedMap.mem_values_iff.mp hvalue
    rw [← heq, hkeyed hk, hk] at hm
    cases hm
  | some m =>
    have hget := hmem m (SortedMap.mem_values_iff.mpr ⟨name, hm⟩)
    rw [hkeyed hm] at hget
    exact hget

/-! ### The check -/

theorem forM_eq_ok {α : Type} {f : α → Except Fault Unit} {l : List α}
    (h : ∀ a ∈ l, f a = .ok ()) : l.forM f = .ok () := by
  induction l with
  | nil => rfl
  | cons a rest ih =>
    show (f a >>= fun _ => rest.forM f) = _
    rw [h a List.mem_cons_self]
    exact ih fun b hb => h b (List.mem_cons_of_mem a hb)

theorem isPaired_of_linked (h : Layout.Linked s (v.copyOn? s)) (hc : v.copyOn? s n = some c) :
    v.isPaired c = true := by
  obtain ⟨hshard, hnode⟩ := h.own hc
  unfold isPaired
  simp only [hshard, hnode, Option.getD_some]
  split
  next m hs hp =>
    obtain ⟨k, t, hk, -, ht, hinit, hback, -⟩ := h.target hc hs
    obtain rfl : m = k := Option.some_inj.mp (hp.symm.trans hk)
    simp [ht, Copy.isRelocationTarget, Copy.isInitializing, hinit, hback]
  next m hs hp =>
    obtain ⟨d, hd, hrel, hback⟩ := h.source hc hs hp
    simp [hd, Copy.isRelocating, hrel, hback]
  next hs hp =>
    obtain ⟨k, t, hk, -⟩ := h.target hc hs
    rw [hp] at hk
    cases hk
  next => rfl

namespace Sound

theorem validateShard_eq (h : v.Sound metadata) {most : Nat} (hknown : metadata.knows s = true)
    (hmost : v.slotCount s ≤ most) : v.validateShard most s = .ok () := by
  have hprimary : ((v.copies s).filter (!·.isRelocationTarget) ++ v.unassignedOf s).countP
      (·.primary) = 1 :=
    ((slots_perm v s).countP_eq _).symm.trans ((countP_slots v s id).trans (h.primaries s hknown))
  have hlength : ((v.copies s).filter (!·.isRelocationTarget) ++ v.unassignedOf s).length =
      v.slotCount s :=
    (slots_perm v s).length_eq.symm.trans (length_slots v s)
  have hpaired : (v.copies s).find? (fun c => !v.isPaired c) = none := by
    rw [List.find?_eq_none]
    intro c hc
    obtain ⟨n, hn⟩ := (mem_copies_iff h.consistent.indexed).mp hc
    simp [isPaired_of_linked (h.consistent.linked s) hn]
  simp only [validateShard]
  rw [if_neg (not_not_intro hprimary), hlength, if_neg (by omega), hpaired]

theorem validate_eq (h : v.Sound metadata)
    (hkeyed : ∀ {name m}, metadata.get? name = some m → m.name = name)
    (hlive : v.departedNodes = []) : v.validate metadata = .ok () := by
  have hknown : (v.holders.keys ++ v.unassigned.map (·.shard)).find?
      (fun s => !metadata.knows s) = none := by
    rw [List.find?_eq_none]
    intro s hs
    have hs : metadata.knows s = true := by
      rcases List.mem_append.mp hs with hs | hs
      · -- a shard with holders has a copy on one of them
        obtain ⟨nodes, hget⟩ := Option.isSome_iff_exists.mp (SortedMap.mem_keys_iff.mp hs)
        obtain ⟨n, hn⟩ := SortedMap.isEmpty_eq_false_iff.mp (h.consistent.indexed.nonempty hget)
        have hcontains := h.consistent.indexed.contains_holdersOf s n
        rw [holdersOf, hget, Option.getD_some, hn] at hcontains
        obtain ⟨c, hc⟩ := Option.isSome_iff_exists.mp hcontains.symm
        exact h.knows_of_copyOn? hc
      · obtain ⟨c, hc, rfl⟩ := List.mem_map.mp hs
        exact h.knows_of_mem hc
    simp [hs]
  simp only [validate, hlive, hknown]
  refine forM_eq_ok fun m hm => forM_eq_ok fun s hs => ?_
  obtain ⟨name, hget⟩ := SortedMap.mem_values_iff.mp hm
  obtain ⟨i, hi, rfl⟩ := List.mem_map.mp hs
  have hname := hkeyed hget
  have hs : metadata.knows ⟨m.name, i⟩ = true := by
    simpa [Metadata.knows, hname, hget] using hi
  have hroom := h.room ⟨m.name, i⟩
  rw [Metadata.capacity, if_pos hs, hname, hget] at hroom
  exact h.validateShard_eq hs (hname ▸ hroom)

end Sound

end View

end ShardAllocation
