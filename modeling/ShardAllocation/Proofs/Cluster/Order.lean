/-
The order of the copies of a shard.

Freezing a view writes the copies of a shard in a fixed order: assigned before waiting,
primaries before replicas, and copies of one role by the names of their nodes.  Declaring an
index, growing it and shrinking it keep to that order, so the entries of every reachable
snapshot are in order.  Such an entry is determined by its copies, and a view that loads it
writes the very same entry again.

* `pairwise_slots` — what a view writes is in order;
* `Reachable.ordered` — so is every entry of a reachable snapshot;
* `Ordered.slots_eq`, `Ordered.freeze_eq` — a view that has loaded it freezes into it.
-/
import Mathlib.Data.List.Sort
import ShardAllocation.Proofs.Cluster.Layout
import ShardAllocation.Proofs.Cluster.Run

namespace ShardAllocation

namespace Copy

variable {c d : Copy} {l : List Copy}

/-- The copy may stand before the other one in the entry of their shard. -/
structure Precedes (c d : Copy) : Prop where
  assigned : c.isUnassigned = true → d.isUnassigned = true
  primary : c.isUnassigned = d.isUnassigned → d.primary = true → c.primary = true
  node : c.primary = d.primary → ∀ {n k}, c.node = some n → d.node = some k → compare n k = .lt

/-- Whatever comes before every copy of another kind, comes first. -/
theorem eq_filter_append {p : Copy → Bool} (h : l.Pairwise fun c d => p d = true → p c = true) :
    l = l.filter p ++ l.filter (!p ·) := by
  induction l with
  | nil => rfl
  | cons c rest ih =>
    obtain ⟨hfirst, hrest⟩ := List.pairwise_cons.mp h
    cases hc : p c with
    | true =>
      rw [List.filter_cons_of_pos hc, List.filter_cons_of_neg (by simp [hc]), List.cons_append,
        ← ih hrest]
    | false =>
      -- none of the rest is of the first kind either
      have hnone : ∀ d ∈ rest, p d = false := fun d hd =>
        Bool.eq_false_iff.mpr fun hp => Bool.false_ne_true (hc ▸ hfirst d hd hp)
      rw [List.filter_eq_nil_iff.mpr (by simpa [hc] using hnone),
        List.filter_eq_self.mpr (by simpa [hc] using hnone), List.nil_append]

/-- Copies in order of which all wait, or none, have the primaries first. -/
theorem primariesFirst_eq (h : l.Pairwise Precedes)
    (hsame : ∀ c ∈ l, ∀ d ∈ l, c.isUnassigned = d.isUnassigned) : View.primariesFirst l = l :=
  (eq_filter_append (h.imp_of_mem fun hc hd hcd => hcd.primary (hsame _ hc _ hd))).symm

/-- Copies in order: first the assigned ones, then those that wait. -/
theorem eq_assigned_append (h : l.Pairwise Precedes) :
    l = l.filter (!·.isUnassigned) ++ l.filter (·.isUnassigned) := by
  have hsplit : l.Pairwise fun c d => (!d.isUnassigned) = true → (!c.isUnassigned) = true :=
    h.imp fun hcd hd => by
      cases hc : Copy.isUnassigned _ with
      | false => rfl
      | true => simp [hcd.assigned hc] at hd
  have heq := eq_filter_append hsplit
  simpa only [Bool.not_not] using heq

/-- No copy on a node stands before itself, nor both before and after another one. -/
theorem Precedes.asymm {n k : NodeId} (hc : c.node = some n) (hd : d.node = some k)
    (hassigned : c.isUnassigned = d.isUnassigned) (h : c.Precedes d) : ¬ d.Precedes c := by
  intro hback
  have hprim : c.primary = d.primary :=
    Bool.eq_iff_iff.mpr ⟨hback.primary hassigned.symm, h.primary hassigned⟩
  have hlt := h.node hprim hc hd
  have hgt := hback.node hprim.symm hd hc
  rw [Std.OrientedOrd.eq_swap, hgt] at hlt
  cases hlt

/-- Assigned copies in order are determined by which they are. -/
theorem eq_of_mem_iff {l₁ l₂ : List Copy} (h₁ : l₁.Pairwise Precedes) (h₂ : l₂.Pairwise Precedes)
    (hassigned : ∀ c ∈ l₁, c.isUnassigned = false ∧ ∃ n, c.node = some n)
    (h : ∀ c, c ∈ l₁ ↔ c ∈ l₂) : l₁ = l₂ := by
  have hasymm : ∀ c ∈ l₁, ∀ d ∈ l₁, c.Precedes d → ¬ d.Precedes c := by
    intro c hc d hd
    obtain ⟨hca, n, hn⟩ := hassigned c hc
    obtain ⟨hda, k, hk⟩ := hassigned d hd
    exact Precedes.asymm hn hk (hca.trans hda.symm)
  have hnodup : ∀ l : List Copy, l.Pairwise Precedes → (∀ c ∈ l, c ∈ l₁) → l.Nodup := by
    intro l hl hmem
    refine hl.imp_of_mem fun {c d} hc hd hcd heq => ?_
    subst heq
    exact hasymm c (hmem c hc) c (hmem c hc) hcd hcd
  have hnodup₁ := hnodup l₁ h₁ fun _ hc => hc
  have hnodup₂ := hnodup l₂ h₂ fun c hc => (h c).mpr hc
  refine ((List.perm_ext_iff_of_nodup hnodup₁ hnodup₂).mpr h).eq_of_pairwise ?_ h₁ h₂
  exact fun c d hc hd hcd hdc => absurd hdc (hasymm c hc d ((h d).mpr hd) hcd)

/-- A fresh copy may stand behind everything but the waiting copies that it has to precede. -/
theorem precedes_newUnassigned {s : ShardId} {primary : Bool} {info : UnassignedInfo}
    (h : c.isUnassigned = true → primary = true → c.primary = true) :
    c.Precedes (newUnassigned s primary info) where
  assigned := fun _ => rfl
  primary := h
  node := fun _ _ _ _ hk => by cases hk

end Copy

namespace View

variable {v : View} {s : ShardId} {m : Metadata}

/-- Primaries before replicas keeps the order of the nodes. -/
theorem pairwise_primariesFirst {l : List Copy}
    (h : l.Pairwise fun c d => ∀ {n k}, c.node = some n → d.node = some k → compare n k = .lt)
    (hsame : ∀ c ∈ l, ∀ d ∈ l, c.isUnassigned = d.isUnassigned) :
    (primariesFirst l).Pairwise Copy.Precedes := by
  have hpart : ∀ (p : Copy → Bool) (b : Bool), (∀ c ∈ l.filter p, c.primary = b) →
      (l.filter p).Pairwise Copy.Precedes := by
    intro p b hb
    refine (h.filter p).imp_of_mem fun {c d} hc hd hcd => ⟨?_, ?_, fun _ => hcd⟩
    · rw [hsame c (List.mem_of_mem_filter hc) d (List.mem_of_mem_filter hd)]
      exact id
    · rw [hb c hc, hb d hd]
      exact fun _ => id
  refine List.pairwise_append.mpr ⟨hpart _ true ?_, hpart _ false ?_, ?_⟩
  · exact fun c hc => (List.mem_filter.mp hc).2
  · exact fun c hc => by simpa using (List.mem_filter.mp hc).2
  · intro c hc d hd
    obtain ⟨hcmem, hcprim⟩ := List.mem_filter.mp hc
    obtain ⟨hdmem, hdprim⟩ := List.mem_filter.mp hd
    have hdprim : d.primary = false := by simpa using hdprim
    refine ⟨?_, fun _ _ => hcprim, fun heq => by simp [hcprim, hdprim] at heq⟩
    rw [hsame c hcmem d hdmem]
    exact id

theorem Sound.assigned_of_mem_copies (h : v.Sound m) {c : Copy} (hc : c ∈ v.copies s) :
    c.isUnassigned = false ∧ ∃ n, c.node = some n := by
  obtain ⟨n, hn⟩ := (mem_copies_iff h.consistent.indexed).mp hc
  exact ⟨by simpa [Copy.isUnassigned] using (h.consistent.linked s).assigned hn, n,
    (h.consistent.own hn).2⟩

theorem Sound.waits_of_mem (h : v.Sound m) {c : Copy} (hc : c ∈ v.unassignedOf s) :
    c.isUnassigned = true ∧ c.node = none := by
  have hstate := h.consistent.waiting c (mem_unassignedOf.mp hc).1
  have hstored := h.stored_of_mem_slots ((mem_slots_iff h.consistent.indexed).mpr
    (.inr (mem_unassignedOf.mp hc)))
  rw [Copy.Stored, hstate] at hstored
  exact ⟨by simp [Copy.isUnassigned, hstate], hstored.1⟩

/-- The assigned copies of a shard come in the order of their nodes. -/
theorem Sound.pairwise_copies (h : v.Sound m) (s : ShardId) : (v.copies s).Pairwise fun c d =>
    ∀ {n k}, c.node = some n → d.node = some k → compare n k = .lt := by
  have hkeys : (v.holdersOf s).keys.Pairwise fun i j => compare i j = .lt :=
    List.pairwise_map.mpr (v.holdersOf s).sorted
  rw [copies_eq, List.pairwise_filterMap]
  refine hkeys.imp ?_
  intro i j hlt c hc d hd n k hn hk
  rw [(h.consistent.own hc).2, Option.some_inj] at hn
  rw [(h.consistent.own hd).2, Option.some_inj] at hk
  rwa [← hn, ← hk]

/-- The slots that are on nodes are in order. -/
theorem Sound.pairwise_assigned (h : v.Sound m) (s : ShardId) :
    (primariesFirst ((v.copies s).filter (!·.isRelocationTarget))).Pairwise Copy.Precedes := by
  refine pairwise_primariesFirst ((h.pairwise_copies s).filter _) fun c hc d hd => ?_
  have hc := h.assigned_of_mem_copies (List.mem_of_mem_filter hc)
  have hd := h.assigned_of_mem_copies (List.mem_of_mem_filter hd)
  exact hc.1.trans hd.1.symm

/-- The slots of a shard are in order. -/
theorem Sound.pairwise_slots (h : v.Sound m) (s : ShardId) :
    (v.slots s).Pairwise Copy.Precedes := by
  refine List.pairwise_append.mpr ⟨h.pairwise_assigned s, ?_, ?_⟩
  · -- what waits is on no node
    refine pairwise_primariesFirst (List.pairwise_of_forall_mem_list fun c hc _ _ _ _ hn => ?_)
      fun c hc d hd => (h.waits_of_mem hc).1.trans (h.waits_of_mem hd).1.symm
    rw [(h.waits_of_mem hc).2] at hn
    cases hn
  · intro c hc d hd
    have hc := List.mem_of_mem_filter ((primariesFirst_perm _).mem_iff.mp hc)
    obtain ⟨hwaits, hnone⟩ := h.waits_of_mem ((primariesFirst_perm _).mem_iff.mp hd)
    obtain ⟨hassigned, -⟩ := h.assigned_of_mem_copies hc
    refine ⟨fun _ => hwaits, fun heq => ?_, fun _ _ _ _ hk => ?_⟩
    · rw [hassigned, hwaits] at heq
      cases heq
    · rw [hnone] at hk
      cases hk

/-- The slots that wait come last. -/
theorem Sound.filter_isUnassigned_slots (h : v.Sound m) (s : ShardId) :
    (v.slots s).filter (·.isUnassigned) = primariesFirst (v.unassignedOf s) := by
  have hassigned : ∀ c ∈ primariesFirst ((v.copies s).filter (!·.isRelocationTarget)),
      ¬ c.isUnassigned = true := by
    intro c hc
    have hmem := List.mem_of_mem_filter ((primariesFirst_perm _).mem_iff.mp hc)
    simp [(h.assigned_of_mem_copies hmem).1]
  have hwaiting : ∀ c ∈ primariesFirst (v.unassignedOf s), c.isUnassigned = true := fun c hc =>
    (h.waits_of_mem ((primariesFirst_perm _).mem_iff.mp hc)).1
  rw [slots, List.filter_append, List.filter_eq_nil_iff.mpr hassigned,
    List.filter_eq_self.mpr hwaiting, List.nil_append]

end View

/-! ### Entries in order -/

/-- The copies of every shard are in order. -/
def ClusterState.Ordered (s : ClusterState) : Prop :=
  ∀ {shard x}, s.table.shard? shard = some x → x.copies.Pairwise Copy.Precedes

namespace ShardTable

/-- Resizing keeps the order: new replicas wait at the end. -/
theorem pairwise_withReplicas {x : ShardTable} (h : x.copies.Pairwise Copy.Precedes)
    (wanted : Nat) (since : Instant) :
    (x.withReplicas wanted since).copies.Pairwise Copy.Precedes := by
  rcases x.withReplicas_cases wanted since with ⟨fresh, heq, -, hfresh⟩ | ⟨hsub, -⟩
  · rw [heq]
    have hlast : ∀ c : Copy, ∀ d ∈ fresh, c.Precedes d := by
      intro c d hd
      rw [hfresh d hd]
      exact Copy.precedes_newUnassigned fun _ hprim => by cases hprim
    exact List.pairwise_append.mpr ⟨h, List.pairwise_of_forall_mem_list fun c _ => hlast c,
      fun c _ => hlast c⟩
  · exact h.sublist hsub

/-- A new shard is in order. -/
theorem pairwise_newUnassigned {x : ShardTable} {m : IndexMetadata} {since : Instant}
    (hx : x ∈ (IndexTable.newUnassigned m since).shards) :
    x.copies.Pairwise Copy.Precedes := by
  obtain ⟨shard, -, rfl⟩ := List.mem_map.mp hx
  refine List.pairwise_cons.mpr ⟨fun c hc => ?_, List.pairwise_replicate.mpr (.inr ?_)⟩
  · rw [List.eq_of_mem_replicate hc]
    exact Copy.precedes_newUnassigned fun _ _ => rfl
  · exact Copy.precedes_newUnassigned fun _ hprim => hprim

end ShardTable

section Steps

variable {s u : ClusterState} {e : Event} {es : List Event}

/-- What a pass leaves is in order, whatever it began with. -/
theorem Passage.ordered {a : Allocator} {t : Trigger} {r : RerouteResult} {p m q : Pass}
    (h : Passage a s t r p m q) : r.state.Ordered := by
  intro shard x hx
  have hknown := h.wellFormed.knows_of_entry hx
  rw [h.state_eq.2.1] at hknown
  rw [h.shard?_table hknown, Option.some_inj] at hx
  exact hx ▸ h.sound_view.pairwise_slots shard

theorem Step.ordered (h : Step s e u) (hs : s.WellFormed) (ho : s.Ordered) : u.Ordered := by
  intro shard x hx
  rcases h.shard?_cases shard with hsame | ⟨y, wanted, since, hy, hresized⟩ | ⟨-, hnone⟩ |
    ⟨-, m, since, hnew⟩ | ⟨a, t, r, -, hr, rfl⟩
  · exact ho (hsame.symm.trans hx)
  · rw [hresized, Option.some_inj] at hx
    exact hx ▸ ShardTable.pairwise_withReplicas (ho hy) wanted since
  · rw [hnone] at hx
    cases hx
  · exact ShardTable.pairwise_newUnassigned (List.mem_of_getElem? (hnew.symm.trans hx))
  · obtain ⟨p, m, q, hpass⟩ := Allocator.exists_passage hs hr
    exact hpass.ordered hx

theorem Run.ordered (h : Run s es u) (hs : s.WellFormed) (ho : s.Ordered) : u.Ordered :=
  (h.invariant (I := fun v => v.WellFormed ∧ v.Ordered) ⟨hs, ho⟩ fun _ hv hstep =>
    ⟨hstep.wellFormed hv.1, hstep.ordered hv.1 hv.2⟩).2

/-- The entries of every reachable snapshot are in order. -/
theorem Reachable.ordered (h : Reachable s) : s.Ordered := by
  obtain ⟨es, hrun⟩ := h
  exact hrun.ordered ClusterState.wellFormed_initial fun hx => by cases hx

end Steps

/-! ### Writing what was loaded -/

namespace ClusterState

variable {s : ClusterState} {shard : ShardId} {members : List NodeId} {v : View}

namespace WellFormed

/-- The copies that a view has loaded are the assigned ones of the table, the targets of moves
apart. -/
theorem mem_copies_loaded_iff (h : s.WellFormed) (hv : View.Loaded members s.table.copies v)
    {x : ShardTable} (hx : s.table.shard? shard = some x) {c : Copy} :
    c ∈ (v.copies shard).filter (!·.isRelocationTarget) ↔
      c ∈ x.copies.filter (!·.isUnassigned) := by
  rw [List.mem_filter, List.mem_filter, View.mem_copies_iff hv.consistent.indexed,
    h.mem_entry_iff hx, Bool.not_eq_true', Bool.not_eq_true']
  constructor
  · rintro ⟨⟨n, hn⟩, ht⟩
    have hassigned : c.isUnassigned = false := by
      simpa [Copy.isUnassigned] using (hv.consistent.linked shard).assigned hn
    obtain ⟨d, hd, hshard, ⟨-, rfl⟩ | ⟨-, htarget⟩⟩ := (hv.copyOn?_iff _ _ _).mp hn
    · exact ⟨⟨hd, hshard⟩, hassigned⟩
    · -- the other half of a move is not stored
      obtain ⟨hrel, rfl⟩ := Copy.relocationTarget?_eq_some_iff.mp htarget
      obtain ⟨k, hk⟩ := (h.loadable.stored d hd).exists_node (by simp [hrel])
      simp [Copy.isRelocationTarget, Copy.isInitializing, hk] at ht
  · rintro ⟨⟨hc, rfl⟩, hassigned⟩
    have hstored := h.loadable.stored c hc
    obtain ⟨n, hn⟩ := hstored.exists_node (by simpa [Copy.isUnassigned] using hassigned)
    exact ⟨⟨n, (hv.copyOn?_iff _ _ _).mpr ⟨c, hc, rfl, .inl ⟨hn, rfl⟩⟩⟩,
      (Copy.stored_iff.mp hstored).2⟩

/-- The copies that wait are loaded in the order of the table. -/
theorem unassignedOf_loaded (h : s.WellFormed) (hv : View.Loaded members s.table.copies v)
    {x : ShardTable} (hx : s.table.shard? shard = some x) :
    v.unassignedOf shard = x.copies.filter (·.isUnassigned) := by
  rw [View.unassignedOf, hv.unassigned, List.filter_comm, h.filter_copies, hx, Option.map_some,
    Option.getD_some]

end WellFormed

/-- The slots of a shard are the copies of its entry, in the same order. -/
theorem Ordered.slots_eq (ho : s.Ordered) (h : s.WellFormed)
    (hv : View.Loaded members s.table.copies v) {x : ShardTable}
    (hx : s.table.shard? shard = some x) : v.slots shard = x.copies := by
  have hsound := h.sound hv
  have hordered := ho hx
  have hassigned : View.primariesFirst ((v.copies shard).filter (!·.isRelocationTarget)) =
      x.copies.filter (!·.isUnassigned) := by
    refine Copy.eq_of_mem_iff (hsound.pairwise_assigned shard) (hordered.filter _) ?_ fun c => ?_
    · exact fun c hc => hsound.assigned_of_mem_copies
        (List.mem_of_mem_filter ((View.primariesFirst_perm _).mem_iff.mp hc))
    · rw [(View.primariesFirst_perm _).mem_iff, h.mem_copies_loaded_iff hv hx]
  have hwaiting : View.primariesFirst (v.unassignedOf shard) =
      x.copies.filter (·.isUnassigned) := by
    rw [h.unassignedOf_loaded hv hx]
    refine Copy.primariesFirst_eq (hordered.filter _) fun c hc d hd => ?_
    exact (List.mem_filter.mp hc).2.trans (List.mem_filter.mp hd).2.symm
  rw [View.slots, hassigned, hwaiting]
  exact (Copy.eq_assigned_append hordered).symm

/-- A view that was loaded from a table in order freezes into it. -/
theorem Ordered.freeze_eq (ho : s.Ordered) (h : s.WellFormed)
    (hv : View.Loaded members s.table.copies v) : v.freeze s.metadata = s.table := by
  refine SortedMap.ext_get? fun name => ?_
  rw [View.get?_freeze (fun hget => h.keyed hget)]
  cases ht : s.table.get? name with
  | none =>
    have hnone : s.metadata.contains name = false := by
      rw [← h.sameIndices, SortedMap.contains, ht]
      rfl
    rw [Option.map_eq_none_iff]
    simpa [SortedMap.contains] using hnone
  | some t =>
    obtain ⟨m, hm, hname, ht'⟩ := h.index_of_get? ht
    rw [hm, Option.map_some, Option.some_inj]
    have hentry : ∀ e ∈ t.shards, ({ shard := e.shard, copies := v.slots e.shard } : ShardTable) =
        e := by
      intro e he
      obtain ⟨f, hf, hshard, hmem⟩ := ht'.getElem? (ht'.shard_mem he)
      obtain rfl : f = e := List.inj_on_of_nodup_map ht'.nodup_shards hmem he hshard
      have hx : s.table.shard? f.shard = some f := by
        have hindex := (IndexMetadata.mem_shardIds.mp (ht'.shard_mem he)).1
        rw [RoutingTable.shard?, hindex, hname, ht, Option.bind_some, hf]
      rw [ho.slots_eq h hv hx]
    have hshards : (v.frozen m).shards = t.shards := by
      rw [View.frozen, ← ht'.shards, List.map_map]
      exact (List.map_congr_left hentry).trans (List.map_id _)
    have hindex : (v.frozen m).index = t.index := ht'.index.symm
    exact congrArg₂ IndexTable.mk hindex hshards

end ClusterState

end ShardAllocation
