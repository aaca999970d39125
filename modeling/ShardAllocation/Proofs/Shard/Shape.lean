/-
The shapes that a copy can take.

The optional fields of a copy go with its state: only an unassigned copy says why it is
unassigned, every other copy has a node, and a second node is named exactly while a move
is in flight.  A fresh copy has such a shape (`Shaped.newUnassigned`) and every step of a
copy keeps it.

* `Shaped` — the shape of any copy, the targets of moves included;
* `Stored` — the shape of the copies that a routing table keeps, read off by state;
* `stored_iff` — a stored copy is a shaped copy that is no target of a move.

The results of the steps have names of their own here (`settled`, `departing`, ...), so
that the views after a change can be written down; `start_eq_ok_iff` and the like say when
a step applies.
-/
import ShardAllocation.Shard.Copy

namespace ShardAllocation

namespace Copy

/-- The copy at the end of a recovery or of a move that was called back. -/
def settled (c : Copy) : Copy := { c with state := .started, peer := none }

/-- The copy on its way to another node. -/
def departing (c : Copy) (target : NodeId) : Copy :=
  { c with state := .relocating, peer := some target }

/-- The other half of a copy on its way. -/
def arriving (c : Copy) (target : NodeId) : Copy :=
  { shard := c.shard, primary := c.primary, state := .initializing
    node := some target, peer := c.node }

/-- The copy that fills a slot on a node. -/
def placedOn (c : Copy) (n : NodeId) : Copy :=
  { shard := c.shard, primary := c.primary, state := .initializing, node := some n }

/-- The slot that an assigned copy leaves behind. -/
def slot (c : Copy) (info : UnassignedInfo) : Copy :=
  newUnassigned c.shard c.primary { info with lostActiveCopy := c.isActive }

/-- The copy as the primary. -/
def asPrimary (c : Copy) : Copy := { c with primary := true }

/-- The nodes that a copy occupies: its own and the other end of its move. -/
def nodes (c : Copy) : List NodeId := c.node.toList ++ c.peer.toList

theorem mem_nodes {c : Copy} {n : NodeId} : n ∈ c.nodes ↔ c.node = some n ∨ c.peer = some n := by
  simp [nodes]

theorem isRelocationTarget_iff {c : Copy} :
    c.isRelocationTarget = true ↔ c.state = .initializing ∧ c.peer.isSome := by
  simp [isRelocationTarget, isInitializing]

theorem isActive_iff {c : Copy} :
    c.isActive = true ↔ c.state = .started ∨ c.state = .relocating := by
  simp [isActive, isStarted, isRelocating]

theorem isRelocationTarget_of_active {c : Copy} (h : c.isActive = true) :
    c.isRelocationTarget = false := by
  rcases isActive_iff.mp h with hs | hs <;> simp [isRelocationTarget, isInitializing, hs]

/-! ### When a step applies -/

section

variable {c d : Copy} {n : NodeId} {info : UnassignedInfo}

theorem place_eq_ok_iff : c.place n = .ok d ↔ c.state = .unassigned ∧ d = c.placedOn n := by
  unfold place
  split <;> simp_all [placedOn, @eq_comm _ d]

theorem start_eq_ok_iff : c.start = .ok d ↔ c.state = .initializing ∧ d = c.settled := by
  unfold start
  split <;> simp_all [settled, @eq_comm _ d]

theorem relocate_eq_ok_iff :
    c.relocate n = .ok d ↔ c.state = .started ∧ c.node ≠ some n ∧ d = c.departing n := by
  unfold relocate
  split
  · simp_all
  · split <;> simp_all [departing, @eq_comm _ d]

theorem cancelRelocation_eq_ok_iff :
    c.cancelRelocation = .ok d ↔ c.state = .relocating ∧ d = c.settled := by
  unfold cancelRelocation
  split <;> simp_all [settled, @eq_comm _ d]

theorem unassign_eq_ok_iff :
    c.unassign info = .ok d ↔
      c.state ≠ .unassigned ∧ c.isRelocationTarget = false ∧ d = c.slot info := by
  unfold unassign
  split
  next hrefused =>
    rw [Bool.or_eq_true, isUnassigned, beq_iff_eq] at hrefused
    rcases hrefused with hs | ht
    · simp [hs]
    · simp [ht]
  next => simp_all [slot, isUnassigned, @eq_comm _ d]

theorem promote_eq_ok_iff : c.promote = .ok d ↔ c.primary = false ∧ d = c.asPrimary := by
  unfold promote
  split <;> simp_all [asPrimary, @eq_comm _ d]

end

/-- The optional fields of a copy go with its state. -/
structure Shaped (c : Copy) : Prop where
  info_isSome : c.info.isSome ↔ c.state = .unassigned
  node_isSome : c.node.isSome ↔ c.state ≠ .unassigned
  peer_isSome : c.state = .relocating → c.peer.isSome
  state_of_peer : c.peer.isSome → c.state = .relocating ∨ c.state = .initializing
  peer_ne_node : c.peer.isSome → c.peer ≠ c.node

/-- The shape of a copy that a routing table keeps. -/
def Stored (c : Copy) : Prop :=
  match c.state with
  | .unassigned => c.node = none ∧ c.peer = none ∧ c.info.isSome
  | .initializing => c.node.isSome ∧ c.peer = none ∧ c.info = none
  | .started => c.node.isSome ∧ c.peer = none ∧ c.info = none
  | .relocating => ∃ n m, c.node = some n ∧ c.peer = some m ∧ n ≠ m ∧ c.info = none

theorem stored_iff {c : Copy} : c.Stored ↔ c.Shaped ∧ c.isRelocationTarget = false := by
  obtain ⟨shard, primary, state, node, peer, info⟩ := c
  constructor
  · intro h
    cases state with
    | unassigned =>
      obtain ⟨hn, hp, hi⟩ := h
      exact ⟨⟨by simp_all, by simp_all, by simp, by simp_all, by simp_all⟩, rfl⟩
    | initializing =>
      obtain ⟨hn, hp, hi⟩ := h
      exact ⟨⟨by simp_all, by simp_all, by simp, by simp_all, by simp_all⟩,
        by simp_all [isRelocationTarget]⟩
    | started =>
      obtain ⟨hn, hp, hi⟩ := h
      exact ⟨⟨by simp_all, by simp_all, by simp, by simp_all, by simp_all⟩, rfl⟩
    | relocating =>
      obtain ⟨n, m, hn, hp, hne, hi⟩ := h
      refine ⟨⟨by simp_all, by simp_all, by simp_all, by simp, fun _ => ?_⟩, rfl⟩
      simp only at hn hp ⊢
      rw [hn, hp]
      exact fun heq => hne (Option.some_inj.mp heq).symm
  · rintro ⟨⟨hinfo, hnode, hpeer, hstate, hne⟩, htarget⟩
    cases state with
    | unassigned => exact ⟨by simp_all, by simp_all, by simp_all⟩
    | initializing =>
      exact ⟨by simp_all, by simp_all [isRelocationTarget, isInitializing], by simp_all⟩
    | started => exact ⟨by simp_all, by simp_all, by simp_all⟩
    | relocating =>
      obtain ⟨m, hm⟩ := Option.isSome_iff_exists.mp (hpeer rfl)
      obtain ⟨n, hn⟩ := Option.isSome_iff_exists.mp (hnode.mpr (by simp))
      refine ⟨n, m, hn, hm, fun heq => ?_, by simp_all⟩
      simp_all

theorem Stored.exists_node {c : Copy} (h : c.Stored) (hs : c.state ≠ .unassigned) :
    ∃ n, c.node = some n :=
  Option.isSome_iff_exists.mp ((stored_iff.mp h).1.node_isSome.mpr hs)

/-! ### The steps keep the shape -/

namespace Shaped

variable {c d : Copy} {n : NodeId}

/-- Unassigned copies of a shard in one role differ only in what they remember. -/
theorem eq_withInfo (hc : c.Shaped) (hd : d.Shaped) (hcs : c.state = .unassigned)
    (hds : d.state = .unassigned) (hshard : c.shard = d.shard) (hprim : c.primary = d.primary) :
    c = { d with info := c.info } := by
  have hempty : ∀ {e : Copy}, e.Shaped → e.state = .unassigned →
      e.node = none ∧ e.peer = none := by
    intro e he hes
    constructor
    · cases hnode : e.node with
      | none => rfl
      | some n => exact absurd hes (he.node_isSome.mp (by rw [hnode]; rfl))
    · cases hpeer : e.peer with
      | none => rfl
      | some n =>
        rcases he.state_of_peer (by rw [hpeer]; rfl) with hs | hs <;> rw [hes] at hs <;> cases hs
  obtain ⟨hcnode, hcpeer⟩ := hempty hc hcs
  obtain ⟨hdnode, hdpeer⟩ := hempty hd hds
  obtain ⟨shard, primary, state, node, peer, info⟩ := c
  obtain ⟨shard', primary', state', node', peer', info'⟩ := d
  simp only at hcs hds hshard hprim hcnode hcpeer hdnode hdpeer
  subst hcs hds hshard hprim hcnode hcpeer hdnode hdpeer
  rfl

theorem newUnassigned (s : ShardId) (primary : Bool) (info : UnassignedInfo) :
    (Copy.newUnassigned s primary info).Shaped := by
  constructor <;> simp [Copy.newUnassigned]

theorem slot (c : Copy) (info : UnassignedInfo) : (c.slot info).Shaped :=
  newUnassigned ..

theorem placedOn (c : Copy) (n : NodeId) : (c.placedOn n).Shaped := by
  constructor <;> simp [Copy.placedOn]

theorem settled (h : c.Shaped) (hs : c.state ≠ .unassigned) : c.settled.Shaped := by
  have hi : ¬ c.info.isSome := mt h.info_isSome.mp hs
  have hn : c.node.isSome := h.node_isSome.mpr hs
  constructor <;> simp_all [Copy.settled]

theorem departing (h : c.Shaped) (hs : c.state = .started) (hn : c.node ≠ some n) :
    (c.departing n).Shaped := by
  have hi : ¬ c.info.isSome := by simp [h.info_isSome, hs]
  have hnode : c.node.isSome := by simp [h.node_isSome, hs]
  constructor <;> simp_all [Copy.departing, Ne.symm]

theorem arriving (hn : c.node ≠ some n) : (c.arriving n).Shaped := by
  constructor <;> simp_all [Copy.arriving]

theorem asPrimary (h : c.Shaped) : c.asPrimary.Shaped :=
  ⟨h.info_isSome, h.node_isSome, h.peer_isSome, h.state_of_peer, h.peer_ne_node⟩

theorem demote (h : c.Shaped) : c.demote.Shaped :=
  ⟨h.info_isSome, h.node_isSome, h.peer_isSome, h.state_of_peer, h.peer_ne_node⟩

theorem relocationTarget? (h : c.Shaped) (ht : c.relocationTarget? = some d) : d.Shaped := by
  obtain ⟨hs, rfl⟩ := relocationTarget?_eq_some_iff.mp ht
  have hnode : c.node.isSome := by simp [h.node_isSome, hs]
  have hpeer : c.peer.isSome := h.peer_isSome hs
  have hne := h.peer_ne_node hpeer
  constructor <;> simp_all [Ne.symm]

end Shaped

end Copy

end ShardAllocation
