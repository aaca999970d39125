/-
Weights: the copies that the nodes are going to keep.

The weight of a node leaves out the copies that move away.  So a move weighs on its target from
its beginning, and its end changes no weight.  Sums over the members, in which the weight of each
node counts for something of its own, are what the progress of passes is measured by.

* `weightOn_settle` — the end of a recovery or of a move changes no weight;
* `weightOn_depart_source`, `weightOn_depart_target`, `weightOn_occupy` — a move takes a copy from
  one weight to another one, and a filled slot adds a copy;
* `tally`, `tally_of_moved`, `tally_of_added` — sums of weights, and how they change.
-/
import Mathlib.Algebra.BigOperators.Group.Finset.Basic
import ShardAllocation.Proofs.Routing.Growth

namespace ShardAllocation

/-- The values of a map are the one under a key, if there is one, and the others. -/
theorem SortedMap.values_perm {β : Type} (m : SortedMap ShardId β) (k : ShardId) :
    m.values.Perm ((m.get? k).toList ++ (m.erase k).values) := by
  have hkeys : ∀ m : SortedMap ShardId β, m.entries.Nodup := fun m => .of_map _ m.nodup_keys
  have hentries : m.entries.Perm ((m.get? k).toList.map (k, ·) ++ (m.erase k).entries) := by
    refine (List.perm_ext_iff_of_nodup (hkeys m) ?_).mpr fun ⟨j, b⟩ => ?_
    · refine List.nodup_append'.mpr ⟨?_, hkeys _, ?_⟩
      · cases m.get? k <;> simp
      · rintro ⟨j, b⟩ hleft hright
        obtain ⟨_, -, hk⟩ := List.mem_map.mp hleft
        obtain ⟨rfl, -⟩ := Prod.mk.inj hk
        rw [mem_entries_iff, get?_erase_self] at hright
        cases hright
    · rw [List.mem_append, mem_entries_iff, mem_entries_iff, get?_erase]
      by_cases hj : j = k
      · subst hj
        simp [Option.mem_toList, eq_comm]
      · simp [hj, Ne.symm hj]
  have hvalues := hentries.map (·.2)
  rw [List.map_append, List.map_map] at hvalues
  exact hvalues.trans (.of_eq (by rw [values]; congr 1; exact List.map_id _))

namespace View

/-- The copies on the node that do not move away. -/
def weightOn (v : View) (n : NodeId) : Nat := (v.heldOn n).values.countP (!·.isRelocating)

variable {v w : View} {s : ShardId} {n k : NodeId} {c : Copy}

theorem weight_of_node? {node : DataNode} (h : v.node? n = some node) :
    node.weight = v.weightOn n := by
  rw [DataNode.weight, copies_of_node? h, weightOn]

/-- When the copies of one shard differ on a node, the weights differ by what these copies count. -/
theorem weightOn_add (h : ∀ t, t ≠ s → w.copyOn? t = v.copyOn? t) (n : NodeId) :
    w.weightOn n + (v.copyOn? s n).toList.countP (!·.isRelocating) =
      v.weightOn n + (w.copyOn? s n).toList.countP (!·.isRelocating) := by
  have hrest : (w.heldOn n).erase s = (v.heldOn n).erase s := by
    refine SortedMap.ext_get? fun t => ?_
    by_cases ht : t = s
    · rw [ht, SortedMap.get?_erase_self, SortedMap.get?_erase_self]
    · rw [SortedMap.get?_erase_of_ne _ ht, SortedMap.get?_erase_of_ne _ ht, ← copyOn?_eq,
        ← copyOn?_eq, h t ht]
  have hv := ((v.heldOn n).values_perm s).countP_eq (!·.isRelocating)
  have hw := ((w.heldOn n).values_perm s).countP_eq (!·.isRelocating)
  rw [List.countP_append, ← copyOn?_eq] at hv hw
  rw [hrest] at hw
  rw [weightOn, weightOn]
  omega

theorem weightOn_congr (h : ∀ t, w.copyOn? t n = v.copyOn? t n) : w.weightOn n = v.weightOn n := by
  have hheld : w.heldOn n = v.heldOn n := SortedMap.ext_get? fun t => by
    rw [← copyOn?_eq, ← copyOn?_eq, h]
  rw [weightOn, weightOn, hheld]

/-! ### The weights after a change -/

/-- A copy that becomes complete was counted before, and the one that it came from was not. -/
theorem Consistent.weightOn_settle (h : v.Consistent) (hc : v.copyOn? c.shard n = some c)
    (hinit : c.state = .initializing) (k : NodeId) : (v.settle n c).weightOn k = v.weightOn k := by
  have hshare := weightOn_add (v := v) (w := v.settle n c) (fun _ ht => copyOn?_settle_of_ne ht) k
  rw [layout_settle, Layout.settle] at hshare
  by_cases hk : k = n
  · subst hk
    simpa [hc, Copy.isRelocating, hinit, Copy.settled] using hshare
  · rw [if_neg hk] at hshare
    by_cases hpeer : c.peer = some k
    · obtain ⟨d, hd, hrel, -⟩ := (h.linked c.shard).source hc hinit hpeer
      simpa [hd, hpeer, Copy.isRelocating, hrel] using hshare
    · simpa [hpeer] using hshare

section Depart

variable (hc : v.copyOn? c.shard n = some c) (hs : c.state = .started)
variable (hk : v.copyOn? c.shard k = none)

include hc hs in
/-- A copy that moves away counts no longer. -/
theorem weightOn_depart_source : (v.depart n k c).weightOn n + 1 = v.weightOn n := by
  have hshare := weightOn_add (v := v) (w := v.depart n k c) (fun _ ht => copyOn?_depart_of_ne ht) n
  rw [layout_depart, Layout.depart] at hshare
  simpa [hc, Copy.isRelocating, hs, Copy.departing] using hshare

include hc hk in
/-- It counts where it moves to. -/
theorem weightOn_depart_target : (v.depart n k c).weightOn k = v.weightOn k + 1 := by
  have hne : k ≠ n := fun heq => by simp [heq, hc] at hk
  have hshare := weightOn_add (v := v) (w := v.depart n k c) (fun _ ht => copyOn?_depart_of_ne ht) k
  rw [layout_depart, Layout.depart] at hshare
  simpa [hne, hk, Copy.isRelocating, Copy.arriving] using hshare

end Depart

theorem weightOn_depart_of_ne {m : NodeId} (hn : m ≠ n) (hk : m ≠ k) :
    (v.depart n k c).weightOn m = v.weightOn m := by
  refine weightOn_congr fun t => ?_
  by_cases ht : t = c.shard
  · rw [ht, layout_depart, Layout.depart, if_neg hn, if_neg hk]
  · rw [copyOn?_depart_of_ne ht]

/-- A filled slot adds a copy. -/
theorem weightOn_occupy (hn : v.copyOn? c.shard n = none) :
    (v.occupy n c).weightOn n = v.weightOn n + 1 := by
  have hshare := weightOn_add (v := v) (w := v.occupy n c) (fun _ ht => copyOn?_occupy_of_ne ht) n
  rw [layout_occupy, Layout.fill] at hshare
  simpa [hn, Copy.isRelocating, Copy.placedOn] using hshare

theorem weightOn_occupy_of_ne (hk : k ≠ n) : (v.occupy n c).weightOn k = v.weightOn k := by
  refine weightOn_congr fun t => ?_
  by_cases ht : t = c.shard
  · rw [ht, layout_occupy, Layout.fill, if_neg hk]
  · rw [copyOn?_occupy_of_ne ht]

/-! ### Sums of weights -/

/-- The sum over the members of what their weights count for. -/
def tally (v : View) (f : NodeId → Nat → Nat) : Nat :=
  ∑ n ∈ v.live.keys.toFinset, f n (v.weightOn n)

theorem mem_live {v : View} : n ∈ v.live.keys.toFinset ↔ v.isLive n = true := by
  rw [List.mem_toFinset, SortedMap.mem_keys_iff, isLive]

theorem tally_congr (hlive : w.live = v.live) (h : ∀ k, w.weightOn k = v.weightOn k)
    (f : NodeId → Nat → Nat) : w.tally f = v.tally f := by
  simp only [tally, hlive, h]

/-- When one weight differs, the sums differ by what it counts for. -/
theorem tally_of_added (hlive : w.live = v.live) (hn : v.isLive n = true)
    (h : ∀ k, k ≠ n → w.weightOn k = v.weightOn k) (f : NodeId → Nat → Nat) :
    w.tally f + f n (v.weightOn n) = v.tally f + f n (w.weightOn n) := by
  have hmem := mem_live.mpr hn
  have hrest : ∑ k ∈ v.live.keys.toFinset.erase n, f k (w.weightOn k) =
      ∑ k ∈ v.live.keys.toFinset.erase n, f k (v.weightOn k) :=
    Finset.sum_congr rfl fun k hk => by rw [h k (Finset.ne_of_mem_erase hk)]
  rw [tally, tally, hlive, ← Finset.add_sum_erase _ _ hmem, ← Finset.add_sum_erase _ _ hmem, hrest]
  omega

/-- When two weights differ, the sums differ by what both count for. -/
theorem tally_of_moved (hlive : w.live = v.live) (hn : v.isLive n = true) (hk : v.isLive k = true)
    (hne : n ≠ k) (h : ∀ m, m ≠ n → m ≠ k → w.weightOn m = v.weightOn m) (f : NodeId → Nat → Nat) :
    w.tally f + (f n (v.weightOn n) + f k (v.weightOn k)) =
      v.tally f + (f n (w.weightOn n) + f k (w.weightOn k)) := by
  have hnmem := mem_live.mpr hn
  have hkmem := Finset.mem_erase.mpr ⟨hne.symm, mem_live.mpr hk⟩
  have hrest : ∑ m ∈ (v.live.keys.toFinset.erase n).erase k, f m (w.weightOn m) =
      ∑ m ∈ (v.live.keys.toFinset.erase n).erase k, f m (v.weightOn m) := by
    refine Finset.sum_congr rfl fun m hm => ?_
    rw [h m (Finset.ne_of_mem_erase (Finset.mem_of_mem_erase hm)) (Finset.ne_of_mem_erase hm)]
  rw [tally, tally, hlive, ← Finset.add_sum_erase _ _ hnmem, ← Finset.add_sum_erase _ _ hnmem,
    ← Finset.add_sum_erase _ _ hkmem, ← Finset.add_sum_erase _ _ hkmem, hrest]
  omega

end View

end ShardAllocation
