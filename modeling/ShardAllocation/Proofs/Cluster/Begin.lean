/-
The pass that begins on a well-formed snapshot.

The copies of a shard in the whole table are those of its one entry.  So the copies of a
well-formed snapshot can be loaded, and the pass that begins on it is sound.

* `filter_copies` — the copies of one shard;
* `WellFormed.loadable` — the copies can be loaded;
* `begin_eq` — the pass begins, and is sound.
-/
import ShardAllocation.Pass.Basic
import ShardAllocation.Proofs.Cluster.WellFormed
import ShardAllocation.Proofs.Pass.Change

namespace ShardAllocation

/-- Where one element of a list gives anything, the others can be left out. -/
theorem flatMap_eq_of_unique {α β κ : Type} (key : α → κ) {l : List α} {f : α → List β} {a : α}
    (hnodup : (l.map key).Nodup) (ha : a ∈ l) (h : ∀ b ∈ l, key b ≠ key a → f b = []) :
    l.flatMap f = f a := by
  induction l with
  | nil => cases ha
  | cons b rest ih =>
    obtain ⟨hfresh, hnodup⟩ := List.nodup_cons.mp hnodup
    rw [List.flatMap_cons]
    rcases List.mem_cons.mp ha with rfl | ha
    · have hrest : rest.flatMap f = [] := List.flatMap_eq_nil_iff.mpr fun c hc =>
        h c (List.mem_cons_of_mem a hc) fun heq => hfresh (heq ▸ List.mem_map_of_mem hc)
      rw [hrest, List.append_nil]
    · have hb : f b = [] := h b List.mem_cons_self fun heq =>
        hfresh (heq ▸ List.mem_map_of_mem ha)
      rw [hb, List.nil_append]
      exact ih hnodup ha fun c hc => h c (List.mem_cons_of_mem b hc)

namespace ShardTable

theorem WellFormed.filter_copies {most : Nat} {e : ShardTable} (h : e.WellFormed most)
    (s : ShardId) : e.copies.filter (·.shard == s) = if e.shard = s then e.copies else [] := by
  split
  next heq => exact List.filter_eq_self.mpr fun c hc => by simp [h.own c hc, heq]
  next hne => exact List.filter_eq_nil_iff.mpr fun c hc => by simp [h.own c hc, hne]

end ShardTable

namespace IndexTable

variable {t : IndexTable} {m : IndexMetadata} {s : ShardId}

theorem WellFormed.nodup_shards (h : t.WellFormed m) : (t.shards.map (·.shard)).Nodup :=
  h.shards ▸ m.nodup_shardIds

theorem WellFormed.shard_mem (h : t.WellFormed m) {e : ShardTable} (he : e ∈ t.shards) :
    e.shard ∈ m.shardIds :=
  h.shards ▸ List.mem_map_of_mem he

theorem WellFormed.index_of_mem (h : t.WellFormed m) {c : Copy} (hc : c ∈ t.copies) :
    c.shard.index = m.name := by
  obtain ⟨e, he, hc⟩ := List.mem_flatMap.mp hc
  rw [(h.wellFormed e he).own c hc]
  exact (IndexMetadata.mem_shardIds.mp (h.shard_mem he)).1

theorem WellFormed.filter_copies (h : t.WellFormed m) (hs : s.index = m.name) :
    t.copies.filter (·.shard == s) = ((t.shards[s.number]?).map (·.copies)).getD [] := by
  rw [copies, List.filter_flatMap]
  have hentry : ∀ e ∈ t.shards, e.shard ≠ s → e.copies.filter (·.shard == s) = [] :=
    fun e he hne => by rw [(h.wellFormed e he).filter_copies, if_neg hne]
  by_cases hmem : s ∈ m.shardIds
  · obtain ⟨e, hget, hshard, he⟩ := h.getElem? hmem
    rw [flatMap_eq_of_unique (·.shard) h.nodup_shards he fun b hb hne =>
      hentry b hb (hshard ▸ hne), (h.wellFormed e he).filter_copies, if_pos hshard, hget]
    rfl
  · have hnone : t.shards[s.number]? = none := by
      have hlength := h.length_shards
      refine List.getElem?_eq_none ?_
      by_contra hlt
      exact hmem (IndexMetadata.mem_shardIds.mpr ⟨hs, by omega⟩)
    rw [hnone, List.flatMap_eq_nil_iff.mpr fun e he =>
      hentry e he fun heq => hmem (heq ▸ h.shard_mem he)]
    rfl

end IndexTable

namespace ClusterState

variable {s : ClusterState} {shard : ShardId}

namespace WellFormed

/-- Every index of the table is declared and well formed. -/
theorem index_of_get? (h : s.WellFormed) {name : String} {t : IndexTable}
    (ht : s.table.get? name = some t) :
    ∃ m, s.metadata.get? name = some m ∧ m.name = name ∧ t.WellFormed m := by
  have hcontains : s.metadata.contains name = true := by
    rw [← h.sameIndices, SortedMap.contains, ht]
    rfl
  obtain ⟨m, hm⟩ := Option.isSome_iff_exists.mp hcontains
  exact ⟨m, hm, h.keyed hm, h.indices hm ht⟩

theorem map_index_values (h : s.WellFormed) : s.table.values.map (·.index) = s.table.keys := by
  rw [SortedMap.values, SortedMap.keys, List.map_map]
  refine List.map_congr_left fun e he => ?_
  obtain ⟨m, -, hname, ht⟩ := h.index_of_get? (SortedMap.mem_entries_iff.mp he)
  exact ht.index.trans hname

/-- The copies of a shard are those of its entry. -/
theorem filter_copies (h : s.WellFormed) (shard : ShardId) :
    s.table.copies.filter (·.shard == shard) =
      ((s.table.shard? shard).map (·.copies)).getD [] := by
  have hother : ∀ u ∈ s.table.values, u.index ≠ shard.index →
      u.copies.filter (·.shard == shard) = [] := by
    intro u hu hne
    obtain ⟨name, hget⟩ := SortedMap.mem_values_iff.mp hu
    obtain ⟨m, -, -, hwf⟩ := h.index_of_get? hget
    refine List.filter_eq_nil_iff.mpr fun c hc heq => hne ?_
    rw [hwf.index, ← hwf.index_of_mem hc, eq_of_beq heq]
  rw [RoutingTable.copies, List.filter_flatMap, RoutingTable.shard?]
  cases hget : s.table.get? shard.index with
  | none =>
    -- without an entry of its index no table has copies of the shard
    refine List.flatMap_eq_nil_iff.mpr fun u hu => hother u hu fun heq => ?_
    obtain ⟨name, hu⟩ := SortedMap.mem_values_iff.mp hu
    obtain ⟨m, -, hname, hwf⟩ := h.index_of_get? hu
    rw [← heq, hwf.index, hname, hu] at hget
    cases hget
  | some t =>
    obtain ⟨m, -, hname, hwf⟩ := h.index_of_get? hget
    have ht : t ∈ s.table.values := SortedMap.mem_values_iff.mpr ⟨shard.index, hget⟩
    have hindex : t.index = shard.index := hwf.index.trans hname
    rw [flatMap_eq_of_unique (·.index) (h.map_index_values ▸ s.table.nodup_keys) ht
      fun u hu hne => hother u hu (hindex ▸ hne)]
    exact hwf.filter_copies hname.symm

theorem mem_copies_iff (h : s.WellFormed) {c : Copy} :
    c ∈ s.table.copies ↔ ∃ e, s.table.shard? c.shard = some e ∧ c ∈ e.copies := by
  have hfilter : c ∈ s.table.copies ↔ c ∈ s.table.copies.filter (·.shard == c.shard) := by simp
  rw [hfilter, h.filter_copies]
  cases s.table.shard? c.shard <;> simp

theorem mem_entry_iff (h : s.WellFormed) {x : ShardTable} (hx : s.table.shard? shard = some x)
    {c : Copy} : c ∈ x.copies ↔ c ∈ s.table.copies ∧ c.shard = shard := by
  have hfilter := h.filter_copies shard
  rw [hx, Option.map_some, Option.getD_some] at hfilter
  rw [← hfilter, List.mem_filter, beq_iff_eq]

/-- The entry of a declared shard. -/
theorem entry (h : s.WellFormed) (hknown : s.metadata.knows shard = true) :
    ∃ e, s.table.shard? shard = some e ∧ e.shard = shard ∧
      e.WellFormed (s.metadata.capacity shard) := by
  rw [Metadata.capacity, if_pos hknown]
  cases hm : s.metadata.get? shard.index with
  | none => simp [Metadata.knows, hm] at hknown
  | some m =>
    have hnumber : shard.number < m.shards := by simpa [Metadata.knows, hm] using hknown
    have hcontains : s.table.contains shard.index = true := by
      rw [h.sameIndices, SortedMap.contains, hm]
      rfl
    obtain ⟨t, ht⟩ := Option.isSome_iff_exists.mp hcontains
    have hwf := h.indices hm ht
    obtain ⟨e, hget, hshard, he⟩ := hwf.getElem? (s := shard)
      (IndexMetadata.mem_shardIds.mpr ⟨(h.keyed hm).symm, hnumber⟩)
    exact ⟨e, by rw [RoutingTable.shard?, ht, Option.bind_some, hget], hshard,
      hwf.wellFormed e he⟩

/-- Only declared shards have an entry. -/
theorem shard?_eq_none (h : s.WellFormed) (hunknown : s.metadata.knows shard = false) :
    s.table.shard? shard = none := by
  rw [RoutingTable.shard?]
  cases ht : s.table.get? shard.index with
  | none => rfl
  | some t =>
    obtain ⟨m, hm, hname, hwf⟩ := h.index_of_get? ht
    have hnumber : m.shards ≤ shard.number := by
      have hle : ¬ shard.number < m.shards := by simpa [Metadata.knows, hm] using hunknown
      omega
    have hlength := hwf.length_shards
    rw [Option.bind_some, List.getElem?_eq_none (by omega)]

theorem knows_of_entry (h : s.WellFormed) {x : ShardTable}
    (hx : s.table.shard? shard = some x) : s.metadata.knows shard = true := by
  by_contra hunknown
  rw [h.shard?_eq_none (Bool.not_eq_true _ ▸ hunknown)] at hx
  cases hx

theorem wellFormed_entry (h : s.WellFormed) {x : ShardTable}
    (hx : s.table.shard? shard = some x) : x.WellFormed (s.metadata.capacity shard) := by
  obtain ⟨e, he, -, hwf⟩ := h.entry (h.knows_of_entry hx)
  obtain rfl : x = e := Option.some_inj.mp (hx.symm.trans he)
  exact hwf

/-- A count over the copies of a shard. -/
theorem countP_copies (h : s.WellFormed) (shard : ShardId) (q : Bool → Bool) :
    s.table.copies.countP (fun c => c.shard == shard && q c.primary) =
      (((s.table.shard? shard).map (·.copies)).getD []).countP fun c => q c.primary := by
  rw [← h.filter_copies, List.countP_filter]
  exact List.countP_congr fun c _ => by rw [Bool.and_comm]

theorem loadable (h : s.WellFormed) : View.Loadable s.table.copies := by
  have hindex : ∀ t ∈ s.table.values, ∃ m, t.WellFormed m := by
    intro t ht
    obtain ⟨name, hget⟩ := SortedMap.mem_values_iff.mp ht
    obtain ⟨m, -, -, hwf⟩ := h.index_of_get? hget
    exact ⟨m, hwf⟩
  constructor
  case stored =>
    intro c hc
    obtain ⟨t, ht, hc⟩ := List.mem_flatMap.mp hc
    obtain ⟨e, he, hc⟩ := List.mem_flatMap.mp hc
    obtain ⟨m, hwf⟩ := hindex t ht
    exact (hwf.wellFormed e he).stored c hc
  case apart =>
    rw [RoutingTable.copies, List.pairwise_flatMap]
    constructor
    · intro t ht
      obtain ⟨m, hwf⟩ := hindex t ht
      rw [IndexTable.copies, List.pairwise_flatMap]
      constructor
      · intro e he
        refine (List.nodup_flatMap.mp (hwf.wellFormed e he).apart).2.imp ?_
        intro c d hdisjoint _
        exact hdisjoint
      · -- the entries of an index are about different shards
        refine (List.pairwise_map.mp hwf.nodup_shards).imp_of_mem ?_
        intro a b ha hb hne c hc d hd heq
        rw [(hwf.wellFormed a ha).own c hc, (hwf.wellFormed b hb).own d hd] at heq
        exact absurd heq hne
    · -- different indices have different shards
      have hnames := List.pairwise_map.mp (h.map_index_values ▸ s.table.nodup_keys)
      refine hnames.imp_of_mem ?_
      intro a b ha hb hne c hc d hd heq
      obtain ⟨i, ha⟩ := hindex a ha
      obtain ⟨j, hb⟩ := hindex b hb
      refine absurd ?_ hne
      rw [ha.index, hb.index, ← ha.index_of_mem hc, ← hb.index_of_mem hd, heq]

/-- The view that has loaded a well-formed snapshot is sound. -/
theorem sound (h : s.WellFormed) {members : List NodeId} {v : View}
    (hv : View.Loaded members s.table.copies v) : v.Sound s.metadata := by
  refine ⟨hv.consistent, hv.shaped, fun shard hknown => ?_, fun shard => ?_⟩
  · obtain ⟨e, hentry, -, hwf⟩ := h.entry hknown
    rw [hv.roleCount_eq, h.countP_copies, hentry]
    exact hwf.primary
  · have hslots := h.countP_copies shard fun _ => true
    rw [View.slotCount_eq, hv.roleCount_eq, hslots]
    cases hknown : s.metadata.knows shard with
    | false =>
      -- a shard that is not declared has no copies and no room for any
      rw [h.shard?_eq_none hknown]
      exact Nat.zero_le _
    | true =>
      obtain ⟨e, hentry, -, hwf⟩ := h.entry hknown
      rw [hentry]
      have hcount := List.countP_le_length (p := fun _ : Copy => true) (l := e.copies)
      exact Nat.le_trans hcount hwf.atMost

/-- A pass begins on every well-formed snapshot, and is sound. -/
theorem begin_eq (h : s.WellFormed) (settings : Settings) (time : Instant) :
    ∃ p, Pass.begin s settings time = .ok p ∧ p.Sound ∧ p.state = s ∧ p.history = s.history ∧
      p.settings = settings ∧ View.Loaded s.members.keys s.table.copies p.view := by
  obtain ⟨v, hv, hloaded⟩ := View.ofTable_eq h.loadable s.members.keys
  refine ⟨{ view := v, history := s.history, state := s, settings, time }, ?_,
    ⟨h.sound hloaded, h.keyed, h.named⟩, rfl, rfl, rfl, hloaded⟩
  rw [Pass.begin, hv]
  rfl

end WellFormed

end ClusterState

end ShardAllocation
