/-
Where the copies of a stored shard are.

A routing table keeps a copy that moves once, at its source.  The layout of a stored shard
spells the moves out, as the working view of a pass does.

* `WellFormed.layout_eq`, `mem_referencedNodes_iff` — how the table itself finds the copies of
  a shard, and the nodes that occur in it;
* `Loaded.layout_eq` — a view that has loaded a table has its layouts;
* `Passage.layout_first`, `Passage.layout_last` — the views at both ends of a pass have the
  layouts of the two snapshots.
-/
import Mathlib.Data.List.Pairwise
import ShardAllocation.Proofs.Cluster.Passage

namespace ShardAllocation

namespace Copy

variable {c d : Copy} {n : NodeId}

/-- What a stored copy puts on a node: itself, or the target of its move. -/
def half? (c : Copy) (n : NodeId) : Option Copy :=
  if c.node = some n then some c else if c.peer = some n then c.relocationTarget? else none

theorem Stored.half?_eq_some (h : c.Stored) : c.half? n = some d ↔
    c.node = some n ∧ d = c ∨ c.peer = some n ∧ c.relocationTarget? = some d := by
  have hne := (stored_iff.mp h).1.peer_ne_node
  unfold half?
  split
  next hnode =>
    have hpeer : c.peer ≠ some n := fun heq => hne (heq ▸ rfl) (heq.trans hnode.symm)
    simp [hnode, hpeer, eq_comm]
  next hnode =>
    split
    next hpeer => simp [hnode, hpeer]
    next hpeer => simp [hnode, hpeer]

theorem mem_nodes_of_half? (h : c.half? n = some d) : n ∈ c.nodes := by
  unfold half? at h
  split at h
  next hnode => exact mem_nodes.mpr (.inl hnode)
  next =>
    split at h
    next hpeer => exact mem_nodes.mpr (.inr hpeer)
    next => cases h

end Copy

/-- The copy of a stored shard on each node, the targets of moves included. -/
def RoutingTable.layout (table : RoutingTable) (s : ShardId) : Layout := fun n =>
  (table.copies.filter (·.shard == s)).findSome? (·.half? n)

/-- The layout of a shard is what its entry says. -/
theorem ClusterState.WellFormed.layout_eq {s : ClusterState} (h : s.WellFormed) (shard : ShardId)
    (n : NodeId) : s.table.layout shard n = (s.table.shard? shard).bind (·.copyOn? n) := by
  rw [RoutingTable.layout, h.filter_copies]
  cases s.table.shard? shard <;> rfl

theorem RoutingTable.mem_referencedNodes_iff {table : RoutingTable} {n : NodeId} :
    n ∈ table.referencedNodes ↔ ∃ c ∈ table.copies, n ∈ c.nodes := by
  rw [referencedNodes, SortedMap.mem_keys_iff, SortedSet.contains_ofList, decide_eq_true_eq,
    List.mem_flatMap]
  rfl

namespace View

variable {v : View} {s : ShardId} {n k : NodeId} {c d : Copy} {m : Metadata}
variable {members : List NodeId} {table : RoutingTable}

/-- At most one copy of a shard puts something on a node. -/
theorem Loadable.layout_eq_some (h : Loadable table.copies) :
    table.layout s n = some c ↔ ∃ d ∈ table.copies, d.shard = s ∧
      (d.node = some n ∧ c = d ∨ d.peer = some n ∧ d.relocationTarget? = some c) := by
  have hfilter : ∀ {d}, d ∈ table.copies.filter (·.shard == s) ↔ d ∈ table.copies ∧ d.shard = s :=
    fun {d} => by rw [List.mem_filter, beq_iff_eq]
  constructor
  · intro hc
    obtain ⟨d, hd, hhalf⟩ := List.exists_of_findSome?_eq_some hc
    obtain ⟨hmem, hshard⟩ := hfilter.mp hd
    exact ⟨d, hmem, hshard, (h.stored d hmem).half?_eq_some.mp hhalf⟩
  · rintro ⟨d, hmem, hshard, hat⟩
    have hhalf := (h.stored d hmem).half?_eq_some.mpr hat
    cases hfound : table.layout s n with
    | none =>
      have hnone := List.findSome?_eq_none_iff.mp hfound d (hfilter.mpr ⟨hmem, hshard⟩)
      rw [hhalf] at hnone
      cases hnone
    | some e =>
      obtain ⟨f, hf, hother⟩ := List.exists_of_findSome?_eq_some hfound
      obtain ⟨hfmem, hfshard⟩ := hfilter.mp hf
      have : Std.Symm fun c d : Copy => c.shard = d.shard → c.nodes.Disjoint d.nodes :=
        ⟨fun _ _ hdisjoint heq => List.disjoint_symm (hdisjoint heq.symm)⟩
      by_cases hsame : f = d
      · subst hsame
        exact hother.symm.trans hhalf
      · -- two copies of the shard share no node
        have hdisjoint := h.apart.forall hfmem hmem hsame (hfshard.trans hshard.symm)
        exact absurd (Copy.mem_nodes_of_half? hhalf)
          (hdisjoint (Copy.mem_nodes_of_half? hother))

/-- A view that has loaded a table has its layouts. -/
theorem Loaded.layout_eq (h : Loaded members table.copies v) (hload : Loadable table.copies)
    (s : ShardId) : v.copyOn? s = table.layout s := by
  funext n
  refine Option.ext fun c => ?_
  rw [h.copyOn?_iff, hload.layout_eq_some]

/-- The nodes with copies are those that occur in the table. -/
theorem Loaded.exists_copyOn?_iff (h : Loaded members table.copies v)
    (hload : Loadable table.copies) :
    (∃ s c, v.copyOn? s n = some c) ↔ ∃ c ∈ table.copies, n ∈ c.nodes := by
  constructor
  · rintro ⟨s, c, hc⟩
    obtain ⟨d, hd, -, hat⟩ := (h.copyOn?_iff _ _ _).mp hc
    exact ⟨d, hd, Copy.mem_nodes.mpr (hat.imp And.left And.left)⟩
  · rintro ⟨d, hd, hn⟩
    rcases Copy.mem_nodes.mp hn with hnode | hpeer
    · exact ⟨d.shard, d, (h.copyOn?_iff _ _ _).mpr ⟨d, hd, rfl, .inl ⟨hnode, rfl⟩⟩⟩
    · -- a stored copy with another end is on its way
      obtain ⟨hshaped, htarget⟩ := Copy.stored_iff.mp (hload.stored d hd)
      have hsome : d.peer.isSome := by rw [hpeer]; rfl
      have hrel : d.state = .relocating := (hshaped.state_of_peer hsome).resolve_right fun hinit =>
        by simp [Copy.isRelocationTarget, Copy.isInitializing, hinit, hsome] at htarget
      exact ⟨d.shard, _, (h.copyOn?_iff _ _ _).mpr ⟨d, hd, rfl, .inr ⟨hpeer,
        Copy.relocationTarget?_eq_some_iff.mpr ⟨hrel, rfl⟩⟩⟩⟩

/-- The target of a move is where its source says. -/
theorem Sound.copyOn?_peer (h : v.Sound m) (hd : v.copyOn? s k = some d)
    (hrel : d.state = .relocating) (hpeer : d.peer = some n) :
    v.copyOn? s n = d.relocationTarget? := by
  have hlinked := h.consistent.linked s
  obtain ⟨j, t, hj, -, ht, hinit, hback, hprim⟩ := hlinked.target hd hrel
  obtain rfl : n = j := Option.some_inj.mp (hpeer.symm.trans hj)
  have hinfo : t.info = none := by
    have hshape := h.shaped.held ht
    simpa [hinit] using hshape.info_isSome
  obtain ⟨htshard, htnode⟩ := hlinked.own ht
  obtain ⟨hdshard, hdnode⟩ := hlinked.own hd
  refine ht.trans (Eq.symm (Copy.relocationTarget?_eq_some_iff.mpr ⟨hrel, ?_⟩))
  obtain ⟨shard, primary, state, node, peer, info⟩ := t
  simp_all

/-- The copies of a sound view are its slots, each with the target of its move. -/
theorem Sound.copyOn?_eq_some (h : v.Sound m) :
    v.copyOn? s n = some c ↔ ∃ d ∈ v.slots s,
      d.node = some n ∧ c = d ∨ d.peer = some n ∧ d.relocationTarget? = some c := by
  have hlinked := h.consistent.linked s
  have hslot : ∀ {k d}, v.copyOn? s k = some d → d.isRelocationTarget = false → d ∈ v.slots s :=
    fun hd ht => (mem_slots_iff h.consistent.indexed).mpr (.inl ⟨⟨_, hd⟩, ht⟩)
  constructor
  · intro hc
    cases ht : c.isRelocationTarget with
    | false => exact ⟨c, hslot hc ht, .inl ⟨(hlinked.own hc).2, rfl⟩⟩
    | true =>
      -- the slot of a target is its source
      obtain ⟨hinit, hsome⟩ := Copy.isRelocationTarget_iff.mp ht
      obtain ⟨k, hk⟩ := Option.isSome_iff_exists.mp hsome
      obtain ⟨d, hd, hrel, hback⟩ := hlinked.source hc hinit hk
      have htarget : d.isRelocationTarget = false :=
        Copy.isRelocationTarget_of_active (Copy.isActive_iff.mpr (.inr hrel))
      exact ⟨d, hslot hd htarget, .inr ⟨hback, (h.copyOn?_peer hd hrel hback).symm.trans hc⟩⟩
  · rintro ⟨d, hd, hat⟩
    rcases (mem_slots_iff h.consistent.indexed).mp hd with ⟨⟨k, hk⟩, -⟩ | ⟨hwait, -⟩
    · rcases hat with ⟨hnode, rfl⟩ | ⟨hpeer, htarget⟩
      · rw [(hlinked.own hk).2, Option.some_inj] at hnode
        exact hnode ▸ hk
      · have hrel := (Copy.relocationTarget?_eq_some_iff.mp htarget).1
        exact (h.copyOn?_peer hk hrel hpeer).trans htarget
    · -- a slot that waits is on no node
      have hstored := h.stored_of_mem_slots hd
      rw [Copy.Stored, h.consistent.waiting d hwait] at hstored
      rcases hat with ⟨hnode, -⟩ | ⟨hpeer, -⟩
      · rw [hstored.1] at hnode
        cases hnode
      · rw [hstored.2.1] at hpeer
        cases hpeer

end View

namespace Passage

variable {a : Allocator} {s : ClusterState} {t : Trigger} {r : RerouteResult} {p m q : Pass}

theorem layout_first (h : Passage a s t r p m q) (hs : s.WellFormed) (shard : ShardId) :
    p.view.copyOn? shard = s.table.layout shard :=
  h.loaded.layout_eq hs.loadable shard

theorem layout_last (h : Passage a s t r p m q) (shard : ShardId) :
    q.view.copyOn? shard = r.state.table.layout shard := by
  funext n
  refine Option.ext fun c => ?_
  rw [h.sound_view.copyOn?_eq_some, h.wellFormed.loadable.layout_eq_some]
  refine exists_congr fun d => ?_
  rw [h.mem_copies_iff, ← and_assoc]
  refine and_congr_left fun _ => ⟨fun hd => ?_, fun hd => hd.2 ▸ hd.1⟩
  obtain rfl := h.sound_view.shard_of_mem_slots hd
  exact ⟨hd, rfl⟩

end Passage

end ShardAllocation
