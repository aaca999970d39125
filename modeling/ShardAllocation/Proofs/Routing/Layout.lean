/-
Layouts: where the copies of one shard are.

A layout gives the copy on each node, the targets of moves included.  `Linked` says that
every copy sits under its own name and that the two halves of each move point at each
other.  Every change of a pass acts on the layout of one shard in one of five ways, and
each of them keeps a layout linked:

* `settle` — a copy becomes started, and the other half of its move goes;
* `vacate` — a copy goes, and the other half of its move with it;
* `depart` — a started copy begins to move;
* `promote` — a copy and the other half of its move become primary;
* `fill` — a copy without a move appears on an empty node.
-/
import ShardAllocation.Proofs.Shard.Shape

namespace ShardAllocation

/-- The copy of one shard on each node. -/
abbrev Layout := NodeId → Option Copy

namespace Layout

/-- The copy `c` on `n` is started, and the other half of its move is gone. -/
def settle (f : Layout) (n : NodeId) (c : Copy) : Layout := fun k =>
  if k = n then some c.settled else if c.peer = some k then none else f k

/-- The copy `c` on `n` is gone, and the other half of its move with it. -/
def vacate (f : Layout) (n : NodeId) (c : Copy) : Layout := fun k =>
  if k = n then none else if c.peer = some k then none else f k

/-- The copy `c` on `n` moves to `m`. -/
def depart (f : Layout) (n m : NodeId) (c : Copy) : Layout := fun k =>
  if k = n then some (c.departing m) else if k = m then some (c.arriving m) else f k

/-- The copy `c` on `n` is the primary, and so is the other half of its move. -/
def promote (f : Layout) (n : NodeId) (c : Copy) : Layout := fun k =>
  if k = n ∨ c.peer = some k then (f k).map Copy.asPrimary else f k

/-- The node `n` holds the copy `c`. -/
def fill (f : Layout) (n : NodeId) (c : Copy) : Layout := fun k =>
  if k = n then some c else f k

/-- Every copy sits under its own name, and the halves of a move point at each other. -/
structure Linked (s : ShardId) (f : Layout) : Prop where
  own : ∀ {n c}, f n = some c → c.shard = s ∧ c.node = some n
  assigned : ∀ {n c}, f n = some c → c.state ≠ .unassigned
  settled : ∀ {n c}, f n = some c → c.state = .started → c.peer = none
  target : ∀ {n c}, f n = some c → c.state = .relocating →
    ∃ m t, c.peer = some m ∧ m ≠ n ∧ f m = some t ∧ t.state = .initializing ∧
      t.peer = some n ∧ t.primary = c.primary
  source : ∀ {n m c}, f n = some c → c.state = .initializing → c.peer = some m →
    ∃ d, f m = some d ∧ d.state = .relocating ∧ d.peer = some n

variable {s : ShardId} {f : Layout} {n m k : NodeId} {c d : Copy}

theorem settle_eq_some : settle f n c k = some d ↔
    (k = n ∧ d = c.settled) ∨ (k ≠ n ∧ c.peer ≠ some k ∧ f k = some d) := by
  unfold settle
  by_cases hk : k = n <;> by_cases hp : c.peer = some k <;> simp [hk, hp, eq_comm]

theorem vacate_eq_some : vacate f n c k = some d ↔
    k ≠ n ∧ c.peer ≠ some k ∧ f k = some d := by
  unfold vacate
  by_cases hk : k = n <;> by_cases hp : c.peer = some k <;> simp [hk, hp]

theorem depart_eq_some : depart f n m c k = some d ↔
    (k = n ∧ d = c.departing m) ∨ (k ≠ n ∧ k = m ∧ d = c.arriving m) ∨
      (k ≠ n ∧ k ≠ m ∧ f k = some d) := by
  unfold depart
  by_cases hk : k = n
  · simp [hk, eq_comm]
  · by_cases hm : k = m
    · subst hm
      simp [hk, eq_comm]
    · simp [hk, hm]

theorem promote_eq_some : promote f n c k = some d ↔
    ∃ e, f k = some e ∧ d = if k = n ∨ c.peer = some k then e.asPrimary else e := by
  unfold promote
  by_cases hk : k = n ∨ c.peer = some k
  · simp only [if_pos hk, Option.map_eq_some_iff, @eq_comm _ d]
  · simp [if_neg hk]

theorem promote_of_ne (hk : k ≠ n) (hp : c.peer ≠ some k) : promote f n c k = f k := by
  rw [promote, if_neg (not_or.mpr ⟨hk, hp⟩)]

/-- The copies that are raised are those on the two ends of the move. -/
theorem promote_eq_map : promote f n c k =
    (f k).map fun d => if k ∈ n :: c.peer.toList then d.asPrimary else d := by
  by_cases hk : k = n ∨ c.peer = some k
  · have hends : k ∈ n :: c.peer.toList := by simpa using hk
    simp only [promote, if_pos hk, if_pos hends]
  · have hends : k ∉ n :: c.peer.toList := by simpa using hk
    simp only [promote, if_neg hk, if_neg hends, Option.map_id']

theorem fill_eq_some : fill f n c k = some d ↔
    (k = n ∧ d = c) ∨ (k ≠ n ∧ f k = some d) := by
  unfold fill
  by_cases hk : k = n <;> simp [hk, eq_comm]

namespace Linked

/-! ### The two halves of a move -/

theorem exists_peer (h : Linked s f) (hc : f n = some c) (hp : c.peer = some m) :
    ∃ d, f m = some d ∧ d.peer = some n ∧ d.primary = c.primary ∧ m ≠ n := by
  cases hs : c.state with
  | unassigned => exact absurd hs (h.assigned hc)
  | started => rw [h.settled hc hs] at hp; cases hp
  | initializing =>
    -- the target of the source is the copy itself, so the roles agree
    obtain ⟨d, hd, hrel, hpd⟩ := h.source hc hs hp
    obtain ⟨k, t, hk, hne, ht, -, -, hprim⟩ := h.target hd hrel
    rw [hpd, Option.some_inj] at hk
    subst hk
    rw [hc, Option.some_inj] at ht
    subst ht
    exact ⟨d, hd, hpd, hprim.symm, hne.symm⟩
  | relocating =>
    obtain ⟨k, t, hk, hne, ht, -, hpt, hprim⟩ := h.target hc hs
    rw [hp, Option.some_inj] at hk
    subst hk
    exact ⟨t, ht, hpt, hprim, hne⟩

theorem peer_eq (h : Linked s f) (hc : f n = some c) (hd : f k = some d)
    (hp : d.peer = some n) : c.peer = some k := by
  obtain ⟨e, he, hpe, -, -⟩ := h.exists_peer hd hp
  rw [hc, Option.some_inj] at he
  exact he ▸ hpe

/-- A copy that is neither `c` nor the other half of its move has its own peer elsewhere. -/
theorem peer_apart (h : Linked s f) (hc : f n = some c) (hd : f k = some d) (hk : k ≠ n)
    (hck : c.peer ≠ some k) (hp : d.peer = some m) : m ≠ n ∧ c.peer ≠ some m := by
  refine ⟨fun hm => hck (h.peer_eq hc hd (hm ▸ hp)), fun hm => hk ?_⟩
  -- the node `m` would be the other end of both moves
  obtain ⟨e, he, hpe, -, -⟩ := h.exists_peer hc hm
  have hke := h.peer_eq he hd hp
  rw [hpe, Option.some_inj] at hke
  exact hke.symm

/-- A copy that moves and is no target is the source. -/
theorem state_of_peer (h : Linked s f) (hc : f n = some c) (hp : c.peer = some m)
    (ht : c.isRelocationTarget = false) : c.state = .relocating := by
  cases hs : c.state with
  | unassigned => exact absurd hs (h.assigned hc)
  | started => rw [h.settled hc hs] at hp; cases hp
  | initializing => simp [Copy.isRelocationTarget, Copy.isInitializing, hs, hp] at ht
  | relocating => rfl

/-- Of the two halves of a move exactly one is the target. -/
theorem isRelocationTarget_peer (h : Linked s f) (hc : f n = some c) (hp : c.peer = some m)
    (hd : f m = some d) : d.isRelocationTarget = !c.isRelocationTarget := by
  by_cases ht : c.isRelocationTarget = true
  · -- the other half of a target is its source
    obtain ⟨r, hr, hrel, -⟩ := h.source hc (Copy.isRelocationTarget_iff.mp ht).1 hp
    obtain rfl : d = r := Option.some_inj.mp (hd.symm.trans hr)
    rw [ht, Copy.isRelocationTarget_of_active (Copy.isActive_iff.mpr (.inr hrel))]
    rfl
  · -- the other half of a source is its target
    have ht : c.isRelocationTarget = false := Bool.not_eq_true _ ▸ ht
    obtain ⟨k, t, hk, -, hget, hinit, hpt, -⟩ := h.target hc (h.state_of_peer hc hp ht)
    obtain rfl : m = k := Option.some_inj.mp (hp.symm.trans hk)
    obtain rfl : d = t := Option.some_inj.mp (hd.symm.trans hget)
    rw [ht, Copy.isRelocationTarget_iff.mpr ⟨hinit, by rw [hpt]; rfl⟩]
    rfl

/-- Of two copies that are no targets neither is the other half of the other one's move. -/
theorem peer_ne (h : Linked s f) (hc : f n = some c) (ht : c.isRelocationTarget = false)
    (hd : f k = some d) (htd : d.isRelocationTarget = false) : c.peer ≠ some k := by
  intro hp
  have hother := h.isRelocationTarget_peer hc hp hd
  rw [ht, htd] at hother
  cases hother

/-- When a copy goes that is no target, only a target goes along. -/
theorem vacate_of_slot (h : Linked s f) (hc : f n = some c) (ht : c.isRelocationTarget = false)
    (hd : f k = some d) (htd : d.isRelocationTarget = false) (hne : k ≠ n) :
    Layout.vacate f n c k = some d :=
  vacate_eq_some.mpr ⟨hne, h.peer_ne hc ht hd htd, hd⟩

/-- When a copy goes that is no target, the other copies with a full set of data stay. -/
theorem vacate_of_active (h : Linked s f) (hc : f n = some c) (ht : c.isRelocationTarget = false)
    (hd : f k = some d) (hactive : d.isActive = true) (hne : k ≠ n) :
    Layout.vacate f n c k = some d :=
  h.vacate_of_slot hc ht hd (Copy.isRelocationTarget_of_active hactive) hne

theorem isActive_or (h : Linked s f) (hc : f n = some c) :
    c.isActive = true ∨ c.state = .initializing := by
  have hs := h.assigned hc
  rw [Copy.isActive_iff]
  cases hstate : c.state <;> simp_all

/-! ### The changes keep the links -/

theorem settle (h : Linked s f) (hc : f n = some c) : Linked s (Layout.settle f n c) := by
  constructor
  case own =>
    intro k d hd
    rcases settle_eq_some.mp hd with ⟨rfl, rfl⟩ | ⟨-, -, hd⟩
    · show c.shard = s ∧ c.node = some k
      exact h.own hc
    · exact h.own hd
  case assigned =>
    intro k d hd
    rcases settle_eq_some.mp hd with ⟨rfl, rfl⟩ | ⟨-, -, hd⟩
    · simp [Copy.settled]
    · exact h.assigned hd
  case settled =>
    intro k d hd hs
    rcases settle_eq_some.mp hd with ⟨rfl, rfl⟩ | ⟨-, -, hd⟩
    · rfl
    · exact h.settled hd hs
  case target =>
    intro k d hd hs
    rcases settle_eq_some.mp hd with ⟨rfl, rfl⟩ | ⟨hk, hck, hd⟩
    · cases hs
    · obtain ⟨m, t, hp, hne, ht, hrest⟩ := h.target hd hs
      obtain ⟨hmn, hcm⟩ := h.peer_apart hc hd hk hck hp
      exact ⟨m, t, hp, hne, settle_eq_some.mpr (.inr ⟨hmn, hcm, ht⟩), hrest⟩
  case source =>
    intro k m d hd hs hp
    rcases settle_eq_some.mp hd with ⟨rfl, rfl⟩ | ⟨hk, hck, hd⟩
    · cases hs
    · obtain ⟨e, he, hrest⟩ := h.source hd hs hp
      obtain ⟨hmn, hcm⟩ := h.peer_apart hc hd hk hck hp
      exact ⟨e, settle_eq_some.mpr (.inr ⟨hmn, hcm, he⟩), hrest⟩

theorem vacate (h : Linked s f) (hc : f n = some c) : Linked s (Layout.vacate f n c) := by
  constructor
  case own => exact fun hd => h.own (vacate_eq_some.mp hd).2.2
  case assigned => exact fun hd => h.assigned (vacate_eq_some.mp hd).2.2
  case settled => exact fun hd => h.settled (vacate_eq_some.mp hd).2.2
  case target =>
    intro k d hd hs
    obtain ⟨hk, hck, hd⟩ := vacate_eq_some.mp hd
    obtain ⟨m, t, hp, hne, ht, hrest⟩ := h.target hd hs
    obtain ⟨hmn, hcm⟩ := h.peer_apart hc hd hk hck hp
    exact ⟨m, t, hp, hne, vacate_eq_some.mpr ⟨hmn, hcm, ht⟩, hrest⟩
  case source =>
    intro k m d hd hs hp
    obtain ⟨hk, hck, hd⟩ := vacate_eq_some.mp hd
    obtain ⟨e, he, hrest⟩ := h.source hd hs hp
    obtain ⟨hmn, hcm⟩ := h.peer_apart hc hd hk hck hp
    exact ⟨e, vacate_eq_some.mpr ⟨hmn, hcm, he⟩, hrest⟩

/-- A node that holds nothing is the other end of no move. -/
theorem peer_ne_of_empty (h : Linked s f) (hd : f k = some d) (hm : f m = none) :
    d.peer ≠ some m := by
  intro hp
  obtain ⟨e, he, -⟩ := h.exists_peer hd hp
  rw [hm] at he
  cases he

theorem fill (h : Linked s f) (hn : f n = none) (hown : c.shard = s ∧ c.node = some n)
    (hstate : c.state = .initializing ∨ c.state = .started) (hpeer : c.peer = none) :
    Linked s (Layout.fill f n c) := by
  constructor
  case own =>
    intro k d hd
    rcases fill_eq_some.mp hd with ⟨rfl, rfl⟩ | ⟨-, hd⟩
    · exact hown
    · exact h.own hd
  case assigned =>
    intro k d hd
    rcases fill_eq_some.mp hd with ⟨rfl, rfl⟩ | ⟨-, hd⟩
    · rcases hstate with hs | hs <;> simp [hs]
    · exact h.assigned hd
  case settled =>
    intro k d hd hs
    rcases fill_eq_some.mp hd with ⟨rfl, rfl⟩ | ⟨-, hd⟩
    · exact hpeer
    · exact h.settled hd hs
  case target =>
    intro k d hd hs
    rcases fill_eq_some.mp hd with ⟨rfl, rfl⟩ | ⟨hk, hd⟩
    · rcases hstate with h' | h' <;> rw [h'] at hs <;> cases hs
    · obtain ⟨m, t, hp, hne, ht, hrest⟩ := h.target hd hs
      have hmn : m ≠ n := fun hm => h.peer_ne_of_empty hd hn (hm ▸ hp)
      exact ⟨m, t, hp, hne, fill_eq_some.mpr (.inr ⟨hmn, ht⟩), hrest⟩
  case source =>
    intro k m d hd hs hp
    rcases fill_eq_some.mp hd with ⟨rfl, rfl⟩ | ⟨hk, hd⟩
    · rw [hpeer] at hp; cases hp
    · obtain ⟨e, he, hrest⟩ := h.source hd hs hp
      have hmn : m ≠ n := fun hm => h.peer_ne_of_empty hd hn (hm ▸ hp)
      exact ⟨e, fill_eq_some.mpr (.inr ⟨hmn, he⟩), hrest⟩

theorem depart (h : Linked s f) (hc : f n = some c) (hs : c.state = .started)
    (hm : f m = none) : Linked s (Layout.depart f n m c) := by
  have hmn : m ≠ n := fun heq => by rw [heq, hc] at hm; cases hm
  obtain ⟨hshard, hnode⟩ := h.own hc
  have hpeer : c.peer = none := h.settled hc hs
  -- no other copy points at the source, which is started, or at the target, which is empty
  have hapart : ∀ {k j d}, f k = some d → d.peer = some j → j ≠ n ∧ j ≠ m := by
    intro k j d hd hp
    refine ⟨fun hj => ?_, fun hj => h.peer_ne_of_empty hd hm (hj ▸ hp)⟩
    have hck := h.peer_eq hc hd (hj ▸ hp)
    rw [hpeer] at hck
    cases hck
  constructor
  case own =>
    intro k d hd
    rcases depart_eq_some.mp hd with ⟨rfl, rfl⟩ | ⟨-, rfl, rfl⟩ | ⟨-, -, hd⟩
    · exact ⟨hshard, hnode⟩
    · exact ⟨hshard, rfl⟩
    · exact h.own hd
  case assigned =>
    intro k d hd
    rcases depart_eq_some.mp hd with ⟨rfl, rfl⟩ | ⟨-, rfl, rfl⟩ | ⟨-, -, hd⟩
    · simp [Copy.departing]
    · simp [Copy.arriving]
    · exact h.assigned hd
  case settled =>
    intro k d hd hstarted
    rcases depart_eq_some.mp hd with ⟨rfl, rfl⟩ | ⟨-, rfl, rfl⟩ | ⟨-, -, hd⟩
    · cases hstarted
    · cases hstarted
    · exact h.settled hd hstarted
  case target =>
    intro k d hd hrel
    rcases depart_eq_some.mp hd with ⟨rfl, rfl⟩ | ⟨-, rfl, rfl⟩ | ⟨hk, hkm, hd⟩
    · -- the new target is on the node that was empty
      exact ⟨m, c.arriving m, rfl, hmn, depart_eq_some.mpr (.inr (.inl ⟨hmn, rfl, rfl⟩)),
        rfl, hnode, rfl⟩
    · cases hrel
    · obtain ⟨j, t, hp, hne, ht, hrest⟩ := h.target hd hrel
      obtain ⟨hjn, hjm⟩ := hapart hd hp
      exact ⟨j, t, hp, hne, depart_eq_some.mpr (.inr (.inr ⟨hjn, hjm, ht⟩)), hrest⟩
  case source =>
    intro k j d hd hinit hp
    rcases depart_eq_some.mp hd with ⟨rfl, rfl⟩ | ⟨-, rfl, rfl⟩ | ⟨hk, hkm, hd⟩
    · cases hinit
    · -- the new target has its source on `n`
      have hj : j = n := Option.some_inj.mp (hp.symm.trans hnode)
      exact ⟨c.departing k, depart_eq_some.mpr (.inl ⟨hj, rfl⟩), rfl, rfl⟩
    · obtain ⟨e, he, hrest⟩ := h.source hd hinit hp
      obtain ⟨hjn, hjm⟩ := hapart hd hp
      exact ⟨e, depart_eq_some.mpr (.inr (.inr ⟨hjn, hjm, he⟩)), hrest⟩

theorem promote (h : Linked s f) (hc : f n = some c) : Linked s (Layout.promote f n c) := by
  constructor
  case own =>
    intro k d hd
    obtain ⟨e, he, rfl⟩ := promote_eq_some.mp hd
    have hown := h.own he
    split <;> exact hown
  case assigned =>
    intro k d hd
    obtain ⟨e, he, rfl⟩ := promote_eq_some.mp hd
    have hstate := h.assigned he
    split <;> exact hstate
  case settled =>
    intro k d hd hs
    obtain ⟨e, he, rfl⟩ := promote_eq_some.mp hd
    have hse : e.state = .started := by split at hs <;> exact hs
    have hpeer := h.settled he hse
    split <;> exact hpeer
  case target =>
    intro k d hd hs
    obtain ⟨e, he, rfl⟩ := promote_eq_some.mp hd
    by_cases hk : k = n ∨ c.peer = some k
    · simp only [if_pos hk] at hs ⊢
      obtain ⟨m, t, hp, hne, ht, hinit, hpt, -⟩ := h.target he hs
      -- the other half is the other one of the two copies that are promoted
      have hm : m = n ∨ c.peer = some m := by
        rcases hk with rfl | hk
        · rw [hc, Option.some_inj] at he
          exact .inr (he ▸ hp)
        · have hcm := h.peer_eq he hc hk
          rw [hp, Option.some_inj] at hcm
          exact .inl hcm
      exact ⟨m, t.asPrimary, hp, hne, promote_eq_some.mpr ⟨t, ht, by rw [if_pos hm]⟩,
        hinit, hpt, rfl⟩
    · -- neither half of another move is promoted
      simp only [if_neg hk] at hs ⊢
      obtain ⟨hkn, hck⟩ := not_or.mp hk
      obtain ⟨m, t, hp, hne, ht, hrest⟩ := h.target he hs
      have hm := not_or.mpr (h.peer_apart hc he hkn hck hp)
      exact ⟨m, t, hp, hne, promote_eq_some.mpr ⟨t, ht, by rw [if_neg hm]⟩, hrest⟩
  case source =>
    intro k m d hd hs hp
    obtain ⟨e, he, rfl⟩ := promote_eq_some.mp hd
    have hse : e.state = .initializing := by split at hs <;> exact hs
    have hpe : e.peer = some m := by split at hp <;> exact hp
    obtain ⟨r, hr, hrel, hpr⟩ := h.source he hse hpe
    refine ⟨_, promote_eq_some.mpr ⟨r, hr, rfl⟩, ?_, ?_⟩
    · split <;> exact hrel
    · split <;> exact hpr

end Linked

end Layout

end ShardAllocation
