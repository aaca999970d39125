/-
The two indexes of the working view.

`put` and `take` are what entering and removing one copy does to both indexes, written as
total functions; the partial operations are equal to them where they succeed.  A view is
`Indexed` when the holders of each shard are exactly the nodes that have a copy of it.

* `copyOn?_put`, `copyOn?_take` — the lookups after a change;
* `Indexed.put`, `Indexed.take` — both keep the indexes in step;
* `nodes_eq`, `Indexed.holders_eq` — the copies on the nodes determine both indexes;
* `mem_copies_iff` — the copies of a shard are those that a lookup finds;
* `countP_copies_add` — how a count over the copies of a shard moves when the copy on one
  node changes.
-/
import Mathlib.Data.List.Nodup
import ShardAllocation.Proofs.Routing.Layout
import ShardAllocation.Routing.Freeze

namespace ShardAllocation

namespace View

/-! ### Entering and removing a copy -/

/-- The copies on a node. -/
def heldOn (v : View) (n : NodeId) : SortedMap ShardId Copy :=
  (v.nodes.get? n).getD SortedMap.empty

/-- The nodes that hold a shard, as the index says. -/
def holdersOf (v : View) (s : ShardId) : SortedSet NodeId :=
  (v.holders.get? s).getD SortedMap.empty

/-- The view with the copy on the node, in place of any other copy of its shard there. -/
def put (v : View) (n : NodeId) (c : Copy) : View :=
  { v with
    nodes := v.nodes.insert n ((v.heldOn n).insert c.shard c)
    holders := v.holders.insert c.shard (SortedSet.add (v.holdersOf c.shard) n) }

/-- The view without the copy of the shard on the node. -/
def take (v : View) (s : ShardId) (n : NodeId) : View :=
  let rest := (v.holdersOf s).erase n
  { v with
    nodes := v.nodes.insert n ((v.heldOn n).erase s)
    holders := if rest.isEmpty then v.holders.erase s else v.holders.insert s rest }

variable {v w : View} {s : ShardId} {n m : NodeId} {c d : Copy}

theorem copyOn?_eq (v : View) (s : ShardId) (n : NodeId) :
    v.copyOn? s n = (v.heldOn n).get? s := by
  unfold copyOn? heldOn
  cases v.nodes.get? n <;> rfl

theorem heldOn_insert (v : View) (n m : NodeId) (held : SortedMap ShardId Copy) :
    heldOn { v with nodes := v.nodes.insert n held } m = if m = n then held else v.heldOn m := by
  simp only [heldOn, SortedMap.get?_insert]
  split <;> rfl

theorem copyOn?_put (v : View) (n : NodeId) (c : Copy) (s : ShardId) :
    (v.put n c).copyOn? s =
      if s = c.shard then Layout.fill (v.copyOn? s) n c else v.copyOn? s := by
  funext m
  have hheld : (v.put n c).heldOn m =
      if m = n then (v.heldOn n).insert c.shard c else v.heldOn m := heldOn_insert ..
  rw [copyOn?_eq, hheld]
  by_cases hs : s = c.shard <;> by_cases hm : m = n <;>
    simp [hs, hm, Layout.fill, SortedMap.get?_insert, copyOn?_eq]

@[simp] theorem copyOn?_put_self (v : View) (n : NodeId) (c : Copy) :
    (v.put n c).copyOn? c.shard = Layout.fill (v.copyOn? c.shard) n c := by
  rw [copyOn?_put, if_pos rfl]

theorem copyOn?_put_elsewhere (v : View) (c : Copy) (s : ShardId) (h : m ≠ n) :
    (v.put n c).copyOn? s m = v.copyOn? s m := by
  rw [copyOn?_put]
  split
  next => rw [Layout.fill, if_neg h]
  next => rfl

theorem copyOn?_take (v : View) (s t : ShardId) (n m : NodeId) :
    (v.take s n).copyOn? t m = if t = s ∧ m = n then none else v.copyOn? t m := by
  have hheld : (v.take s n).heldOn m =
      if m = n then (v.heldOn n).erase s else v.heldOn m := heldOn_insert ..
  rw [copyOn?_eq, hheld]
  by_cases hs : t = s <;> by_cases hm : m = n <;>
    simp [hs, hm, SortedMap.get?_erase, copyOn?_eq]

theorem copyOn?_take_of_ne (v : View) {s t : ShardId} (h : t ≠ s) (n : NodeId) :
    (v.take s n).copyOn? t = v.copyOn? t := by
  funext m
  rw [copyOn?_take, if_neg (fun heq => h heq.1)]

@[simp] theorem unassigned_put (v : View) (n : NodeId) (c : Copy) :
    (v.put n c).unassigned = v.unassigned := rfl

theorem contains_nodes_put (v : View) (n m : NodeId) (c : Copy) :
    (v.put n c).nodes.contains m = (decide (m = n) || v.nodes.contains m) :=
  SortedMap.contains_insert ..

theorem contains_nodes_take (v : View) (s : ShardId) (n m : NodeId) :
    (v.take s n).nodes.contains m = (decide (m = n) || v.nodes.contains m) :=
  SortedMap.contains_insert ..

theorem contains_nodes_of_copyOn? (h : v.copyOn? s n = some c) : v.nodes.contains n = true := by
  unfold copyOn? at h
  obtain ⟨held, hheld, -⟩ := Option.bind_eq_some_iff.mp h
  simp [SortedMap.contains, hheld]

/-! ### The indexes in step -/

/-- The holders of each shard are the nodes with a copy of it, and no shard without a copy
is listed. -/
structure Indexed (v : View) : Prop where
  contains_holdersOf : ∀ s n, (v.holdersOf s).contains n = (v.copyOn? s n).isSome
  nonempty : ∀ {s nodes}, v.holders.get? s = some nodes → nodes.isEmpty = false

theorem holdersOf_put (v : View) (n : NodeId) (c : Copy) (s : ShardId) :
    (v.put n c).holdersOf s =
      if s = c.shard then SortedSet.add (v.holdersOf s) n else v.holdersOf s := by
  simp only [holdersOf, put, SortedMap.get?_insert]
  by_cases hs : s = c.shard
  · subst hs
    simp
  · simp [hs]

theorem holdersOf_take (v : View) (s t : ShardId) (n : NodeId) :
    (v.take s n).holdersOf t = if t = s then (v.holdersOf s).erase n else v.holdersOf t := by
  by_cases hempty : ((v.holdersOf s).erase n).isEmpty = true
  · -- the last holder goes, and the shard is no longer listed
    have hholders : (v.take s n).holders = v.holders.erase s := if_pos hempty
    rw [holdersOf, hholders, SortedMap.get?_erase, SortedMap.eq_empty_of_isEmpty hempty]
    by_cases ht : t = s
    · rw [if_pos ht, if_pos ht]
      rfl
    · rw [if_neg ht, if_neg ht]
      rfl
  · have hholders : (v.take s n).holders = v.holders.insert s ((v.holdersOf s).erase n) :=
      if_neg hempty
    rw [holdersOf, hholders, SortedMap.get?_insert]
    by_cases ht : t = s
    · rw [if_pos ht, if_pos ht]
      rfl
    · rw [if_neg ht, if_neg ht]
      rfl

theorem Indexed.put (h : v.Indexed) (n : NodeId) (c : Copy) : (v.put n c).Indexed := by
  constructor
  case contains_holdersOf =>
    intro s m
    rw [holdersOf_put, copyOn?_put]
    by_cases hs : s = c.shard
    · rw [if_pos hs, if_pos hs, SortedSet.contains_add, h.contains_holdersOf]
      by_cases hm : m = n <;> simp [Layout.fill, hm]
    · rw [if_neg hs, if_neg hs, h.contains_holdersOf]
  case nonempty =>
    intro s nodes hget
    simp only [View.put, SortedMap.get?_insert] at hget
    by_cases hs : s = c.shard
    · rw [if_pos hs, Option.some_inj] at hget
      exact SortedMap.isEmpty_eq_false_iff.mpr ⟨n, by rw [← hget]; simp⟩
    · rw [if_neg hs] at hget
      exact h.nonempty hget

theorem Indexed.take (h : v.Indexed) (s : ShardId) (n : NodeId) : (v.take s n).Indexed := by
  constructor
  case contains_holdersOf =>
    intro t m
    rw [holdersOf_take, copyOn?_take]
    by_cases ht : t = s
    · subst ht
      rw [if_pos rfl, SortedMap.contains_erase, h.contains_holdersOf]
      by_cases hm : m = n <;> simp [hm]
    · rw [if_neg ht, if_neg (fun heq => ht heq.1), h.contains_holdersOf]
  case nonempty =>
    intro t nodes hget
    simp only [View.take] at hget
    split at hget
    · rw [SortedMap.get?_erase] at hget
      split at hget
      · cases hget
      · exact h.nonempty hget
    · rename_i hne
      rw [SortedMap.get?_insert] at hget
      split at hget
      · rw [← Option.some_inj.mp hget]
        exact eq_false_of_ne_true hne
      · exact h.nonempty hget

/-! ### What determines the indexes -/

/-- The nodes of a view and the copies on them determine its index by node. -/
theorem nodes_eq (hnodes : ∀ n, v.nodes.contains n = w.nodes.contains n)
    (hcopies : v.copyOn? = w.copyOn?) : v.nodes = w.nodes := by
  refine SortedMap.ext_get? fun n => ?_
  have hcontains := hnodes n
  simp only [SortedMap.contains] at hcontains
  cases hv : v.nodes.get? n with
  | none =>
    rw [hv, Option.isSome_none] at hcontains
    exact (Option.not_isSome_iff_eq_none.mp (by simp [← hcontains])).symm
  | some held =>
    rw [hv, Option.isSome_some] at hcontains
    obtain ⟨other, hw⟩ := Option.isSome_iff_exists.mp hcontains.symm
    have hheld : held = other := SortedMap.ext_get? fun s => by
      have hcopy := congrFun (congrFun hcopies s) n
      simpa [copyOn?, hv, hw] using hcopy
    rw [hw, hheld]

theorem Indexed.holdersOf_eq (hv : v.Indexed) (hw : w.Indexed) (h : v.copyOn? s = w.copyOn? s) :
    v.holdersOf s = w.holdersOf s :=
  SortedSet.ext_contains fun n => by rw [hv.contains_holdersOf, hw.contains_holdersOf, h]

theorem Indexed.get?_holders (h : v.Indexed) (s : ShardId) : v.holders.get? s =
    if (v.holdersOf s).isEmpty then none else some (v.holdersOf s) := by
  cases hget : v.holders.get? s with
  | none =>
    rw [holdersOf, hget]
    rfl
  | some nodes =>
    rw [holdersOf, hget, Option.getD_some, if_neg (by simp [h.nonempty hget])]

/-- The copies on the nodes determine the index by shard. -/
theorem Indexed.holders_eq (hv : v.Indexed) (hw : w.Indexed) (h : v.copyOn? = w.copyOn?) :
    v.holders = w.holders := by
  refine SortedMap.ext_get? fun s => ?_
  rw [hv.get?_holders, hw.get?_holders, hv.holdersOf_eq hw (congrFun h s)]

/-! ### The copies of a shard -/

theorem copies_eq (v : View) (s : ShardId) :
    v.copies s = (v.holdersOf s).keys.filterMap (v.copyOn? s) := by
  unfold copies holdersOf
  cases v.holders.get? s <;> rfl

theorem mem_copies_iff (h : v.Indexed) : c ∈ v.copies s ↔ ∃ n, v.copyOn? s n = some c := by
  rw [copies_eq, List.mem_filterMap]
  constructor
  · rintro ⟨n, -, hn⟩
    exact ⟨n, hn⟩
  · rintro ⟨n, hn⟩
    refine ⟨n, ?_, hn⟩
    rw [SortedMap.mem_keys_iff, h.contains_holdersOf, hn]
    rfl

/-- The copies of a shard depend on its layout alone. -/
theorem copies_congr (hv : v.Indexed) (hw : w.Indexed) (h : w.copyOn? s = v.copyOn? s) :
    w.copies s = v.copies s := by
  rw [copies_eq, copies_eq, hw.holdersOf_eq hv h, h]

/-- The copies of a shard on the other nodes. -/
def elsewhere (v : View) (s : ShardId) (n : NodeId) : List Copy :=
  ((v.holdersOf s).keys.filter (· != n)).filterMap (v.copyOn? s)

theorem copies_perm (h : v.Indexed) (s : ShardId) (n : NodeId) :
    (v.copies s).Perm ((v.copyOn? s n).toList ++ v.elsewhere s n) := by
  have hnodup := (v.holdersOf s).nodup_keys
  rw [copies_eq, elsewhere]
  by_cases hn : n ∈ (v.holdersOf s).keys
  · -- a holder comes to the front of the list
    have hperm := List.perm_cons_erase hn
    rw [hnodup.erase_eq_filter] at hperm
    have hmap := hperm.filterMap (v.copyOn? s)
    rw [List.filterMap_cons] at hmap
    cases hc : v.copyOn? s n with
    | none => rw [hc] at hmap; exact hmap
    | some c => rw [hc] at hmap; exact hmap
  · -- a node that is no holder contributes nothing
    have hnone : v.copyOn? s n = none := by
      rw [SortedMap.mem_keys_iff, h.contains_holdersOf] at hn
      simpa using hn
    have hfilter : (v.holdersOf s).keys.filter (· != n) = (v.holdersOf s).keys :=
      List.filter_eq_self.mpr fun k hk => by
        have hkn : k ≠ n := fun heq => hn (heq ▸ hk)
        simpa using hkn
    rw [hnone, hfilter]
    exact .refl _

theorem elsewhere_perm (hv : v.Indexed) (hw : w.Indexed)
    (h : ∀ m, m ≠ n → w.copyOn? s m = v.copyOn? s m) :
    (w.elsewhere s n).Perm (v.elsewhere s n) := by
  have hkeys : ((w.holdersOf s).keys.filter (· != n)).Perm
      ((v.holdersOf s).keys.filter (· != n)) := by
    refine (List.perm_ext_iff_of_nodup ((SortedMap.nodup_keys _).filter _)
      ((SortedMap.nodup_keys _).filter _)).mpr fun m => ?_
    simp only [List.mem_filter, SortedMap.mem_keys_iff, hw.contains_holdersOf,
      hv.contains_holdersOf, bne_iff_ne]
    constructor
    · rintro ⟨hm, hne⟩
      exact ⟨h m hne ▸ hm, hne⟩
    · rintro ⟨hm, hne⟩
      exact ⟨(h m hne).symm ▸ hm, hne⟩
  have hsame : ((v.holdersOf s).keys.filter (· != n)).filterMap (w.copyOn? s) =
      ((v.holdersOf s).keys.filter (· != n)).filterMap (v.copyOn? s) :=
    List.filterMap_congr fun m hm => h m (by simpa using (List.mem_filter.mp hm).2)
  exact (hkeys.filterMap _).trans (.of_eq hsame)

/-- When only the copy on one node differs, a count over the copies of the shard differs
by what that copy contributes. -/
theorem countP_copies_add (hv : v.Indexed) (hw : w.Indexed) (p : Copy → Bool)
    (h : ∀ m, m ≠ n → w.copyOn? s m = v.copyOn? s m) :
    (w.copies s).countP p + (v.copyOn? s n).toList.countP p =
      (v.copies s).countP p + (w.copyOn? s n).toList.countP p := by
  have hcv := (copies_perm hv s n).countP_eq p
  have hcw := (copies_perm hw s n).countP_eq p
  have helse := (elsewhere_perm hv hw h).countP_eq p
  rw [List.countP_append] at hcv hcw
  omega

/-- Two copies of a shard on different nodes are counted twice. -/
theorem two_le_countP_copies (h : v.Indexed) {p : Copy → Bool} (hc : v.copyOn? s n = some c)
    (hd : v.copyOn? s m = some d) (hne : m ≠ n) (hpc : p c = true) (hpd : p d = true) :
    2 ≤ (v.copies s).countP p := by
  have hcount := (copies_perm h s n).countP_eq p
  have hmem : d ∈ v.elsewhere s n := by
    refine List.mem_filterMap.mpr ⟨m, List.mem_filter.mpr ⟨?_, by simpa using hne⟩, hd⟩
    rw [SortedMap.mem_keys_iff, h.contains_holdersOf, hd]
    rfl
  have hpos := List.countP_pos_iff.mpr ⟨d, hmem, hpd⟩
  rw [hc, Option.toList_some, List.countP_append, List.countP_singleton, if_pos hpc] at hcount
  omega

end View

end ShardAllocation
