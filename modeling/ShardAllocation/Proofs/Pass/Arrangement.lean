/-
Where the data of a shard is while copies are placed and move.

Once recoveries are completed and departed nodes are cleared, no copy becomes complete and none
that is complete leaves its node.  So through all commands and all placements the data of a
shard stays where it is, each part of it in the role that it has.

* `Layout.data` — the full sets of data of a shard, with what every kind of change leaves of
  them;
* `data_apply`, `Runs.data_eq` — commands and placements leave them where they are;
* `Sound.primaryNode?_eq_some_iff` — the node that replicas are filled from has one of them.
-/
import ShardAllocation.Proofs.Pass.Survival

namespace ShardAllocation

namespace Layout

/-- The role of the copy on each node that has a full set of data. -/
def data (f : Layout) (n : NodeId) : Option Bool :=
  (f n).bind fun c => if c.isActive then some c.primary else none

variable {s : ShardId} {f : Layout} {n m k : NodeId} {c : Copy} {primary : Bool}

theorem data_eq_some : f.data n = some primary ↔
    ∃ c, f n = some c ∧ c.isActive = true ∧ c.primary = primary := by
  simp [data, Option.bind_eq_some_iff]

theorem data_eq_none : f.data n = none ↔ ∀ c, f n = some c → c.isActive = false := by
  simp [data, Option.bind_eq_none_iff]

theorem data_of_active (hc : f n = some c) (hactive : c.isActive = true) :
    f.data n = some c.primary := data_eq_some.mpr ⟨c, hc, hactive, rfl⟩

theorem data_of_inactive (hc : f n = some c) (hinactive : c.isActive = false) :
    f.data n = none := by
  rw [data_eq_none, hc]
  rintro _ ⟨⟩
  exact hinactive

theorem data_of_empty (hn : f n = none) : f.data n = none := by
  rw [data, hn, Option.bind_none]

/-- A layout that has the same copies elsewhere has the same data there. -/
theorem data_congr {g : Layout} (h : g k = f k) : g.data k = f.data k := by
  rw [data, data, h]

/-- When a move is called off, the data is still at its source. -/
theorem data_settle (h : Linked s f) (hc : f n = some c) (hrel : c.state = .relocating) :
    (f.settle n c).data = f.data := by
  have hactive : c.isActive = true := Copy.isActive_iff.mpr (.inr hrel)
  funext k
  by_cases hk : k = n
  · subst hk
    rw [data_of_active hc hactive]
    exact data_eq_some.mpr ⟨c.settled, settle_eq_some.mpr (.inl ⟨rfl, rfl⟩), rfl, rfl⟩
  by_cases hp : c.peer = some k
  · -- what goes is the target, which has no data yet
    obtain ⟨j, t, hj, -, ht, hinit, -⟩ := h.target hc hrel
    obtain rfl : k = j := Option.some_inj.mp (hp.symm.trans hj)
    have hgone : f.settle n c k = none := by rw [settle, if_neg hk, if_pos hp]
    rw [data_of_empty hgone, data_of_inactive ht]
    simp [Copy.isActive, Copy.isStarted, Copy.isRelocating, hinit]
  · exact data_congr (by rw [settle, if_neg hk, if_neg hp])

/-- A copy without data that is no target takes no data away. -/
theorem data_vacate (h : Linked s f) (hc : f n = some c) (ht : c.isRelocationTarget = false)
    (hinactive : c.isActive = false) : (f.vacate n c).data = f.data := by
  have hpeer : c.peer = none := by
    by_contra hsome
    obtain ⟨j, hj⟩ := Option.ne_none_iff_exists'.mp hsome
    have hrel := h.state_of_peer hc hj ht
    rw [Copy.isActive_iff.mpr (.inr hrel)] at hinactive
    cases hinactive
  funext k
  by_cases hk : k = n
  · subst hk
    rw [data_of_inactive hc hinactive]
    exact data_of_empty (if_pos rfl)
  · exact data_congr (by rw [vacate, if_neg hk, hpeer, if_neg (by simp)])

/-- When a move begins, the data is still at its source. -/
theorem data_depart (hc : f n = some c) (hstarted : c.state = .started) (hm : f m = none) :
    (f.depart n m c).data = f.data := by
  funext k
  by_cases hk : k = n
  · subst hk
    rw [data_of_active hc (Copy.isActive_iff.mpr (.inl hstarted))]
    exact data_eq_some.mpr ⟨c.departing m, depart_eq_some.mpr (.inl ⟨rfl, rfl⟩), rfl, rfl⟩
  by_cases hkm : k = m
  · subst hkm
    rw [data_of_empty hm]
    exact data_of_inactive (depart_eq_some.mpr (.inr (.inl ⟨hk, rfl, rfl⟩))) rfl
  · exact data_congr (by rw [depart, if_neg hk, if_neg hkm])

/-- A copy that was just placed has no data. -/
theorem data_fill (hn : f n = none) (hinactive : c.isActive = false) :
    (f.fill n c).data = f.data := by
  funext k
  by_cases hk : k = n
  · subst hk
    rw [data_of_empty hn]
    exact data_of_inactive (fill_eq_some.mpr (.inl ⟨rfl, rfl⟩)) hinactive
  · exact data_congr (by rw [fill, if_neg hk])

end Layout

namespace View

/-- The role of the copy of a shard on each node that has a full set of data. -/
def data (v : View) (s : ShardId) : NodeId → Option Bool := Layout.data (v.copyOn? s)

/-- The node of the active primary of a shard. -/
def primaryNode? (v : View) (s : ShardId) : Option NodeId := (v.activePrimary? s).bind (·.node)

variable {v w : View} {m : Metadata} {s : ShardId} {n : NodeId} {c : Copy}

/-- The active primary is where the primary data is. -/
theorem Sound.primaryNode?_eq_some_iff (h : v.Sound m) :
    v.primaryNode? s = some n ↔ v.data s n = some true := by
  rw [primaryNode?, Option.bind_eq_some_iff, data, Layout.data_eq_some]
  constructor
  · rintro ⟨c, hc, hnode⟩
    obtain ⟨⟨k, hk⟩, hprim, hactive⟩ := h.activePrimary?_eq_some_iff.mp hc
    rw [(h.consistent.own hk).2, Option.some_inj] at hnode
    exact ⟨c, hnode ▸ hk, hactive, hprim⟩
  · rintro ⟨c, hc, hactive, hprim⟩
    exact ⟨c, h.activePrimary?_eq_some_iff.mpr ⟨⟨n, hc⟩, hprim, hactive⟩, (h.consistent.own hc).2⟩

/-- Where the data is the same, so is the node that replicas are filled from. -/
theorem Sound.primaryNode?_congr (hv : v.Sound m) (hw : w.Sound m)
    (h : w.data s = v.data s) : w.primaryNode? s = v.primaryNode? s := by
  refine Option.ext fun k => ?_
  rw [hw.primaryNode?_eq_some_iff, hv.primaryNode?_eq_some_iff, h]

/-- A primary that is no target and not active is the only primary. -/
theorem Sound.primaryNode?_eq_none (h : v.Sound m) (hc : v.copyOn? s n = some c)
    (hprim : c.primary = true) (ht : c.isRelocationTarget = false)
    (hinactive : c.isActive = false) : v.primaryNode? s = none := by
  rw [primaryNode?, activePrimary?, h.primary?_eq hc ht hprim, Option.filter_some_neg]
  · rfl
  · simpa using hinactive

/-- While the primary slot of a shard waits, no primary has data. -/
theorem Sound.data_ne_of_waiting (h : v.Sound m) (hc : c ∈ v.unassigned)
    (hprim : c.primary = true) (k : NodeId) : v.data c.shard k ≠ some true := by
  intro hdata
  obtain ⟨d, hd, hactive, hdprim⟩ := Layout.data_eq_some.mp hdata
  have hzero := h.waitingCount_eq_zero hd (Copy.isRelocationTarget_of_active hactive) hdprim
  have hpos : 0 < v.waitingCount c.shard id := waitingCount_pos hc hprim
  omega

/-- Where a shard has replicas only beside an active primary, its data is led by the primary. -/
theorem Led.exists_data (h : v.Led s) {primary : Bool} (hdata : v.data s n = some primary) :
    ∃ k, v.data s k = some true := by
  obtain ⟨c, hc, hactive, -⟩ := Layout.data_eq_some.mp hdata
  rcases h with ⟨k, d, hd, hdactive, hprim⟩ | hall
  · exact ⟨k, Layout.data_eq_some.mpr ⟨d, hd, hdactive, hprim⟩⟩
  · exact ⟨n, Layout.data_eq_some.mpr ⟨c, hc, hactive, hall n c hc⟩⟩

/-- Where no node has data of a shard, what initializes there is a primary that begins empty. -/
theorem Led.fresh_of_data_eq_none (h : v.Led s) (hv : v.Consistent)
    (hempty : ∀ k, v.data s k = none) (hc : v.copyOn? s n = some c)
    (hinit : c.state = .initializing) : c.primary = true ∧ c.isRelocationTarget = false := by
  have hinactive : ∀ {k d}, v.copyOn? s k = some d → d.isActive = false := fun {k d} =>
    Layout.data_eq_none.mp (hempty k) d
  constructor
  · rcases h with ⟨k, d, hd, hactive, -⟩ | hall
    · rw [hinactive hd] at hactive
      cases hactive
    · exact hall n c hc
  · -- the source of a move has data
    by_contra ht
    obtain ⟨j, hj⟩ := Option.isSome_iff_exists.mp
      (Copy.isRelocationTarget_iff.mp (Bool.not_eq_false _ ▸ ht)).2
    obtain ⟨d, hd, hrel, -⟩ := (hv.linked s).source hc hinit hj
    have hactive := hinactive hd
    rw [Copy.isActive_iff.mpr (.inr hrel)] at hactive
    cases hactive

end View

namespace Pass

variable {P : Policy} {p q : Pass} {ch : Change}

/-- Commands and placements leave all data where it is. -/
theorem data_apply (hp : p.Sound) (hfit : ch.Fits p.state.metadata p.view)
    (hguard : P.Arranges p ch) (s : ShardId) :
    (ch.apply p).view.data s = p.view.data s := by
  have hv := hp.view.consistent
  rw [View.data, View.data, Change.apply]
  by_cases hs : ch.shard? = some s
  swap
  · rw [View.copyOn?_onView_of_ne hv hfit hs]
  cases ch with
  | cancel c n =>
    obtain rfl : c.shard = s := Option.some_inj.mp hs
    exact (congrArg Layout.data (View.layout_settle p.view n c)).trans
      (Layout.data_settle (hv.linked _) hfit.1 hfit.2)
  | relocate c n target =>
    obtain rfl : c.shard = s := Option.some_inj.mp hs
    obtain ⟨hc, hstarted, hempty, -⟩ := hfit
    exact (congrArg Layout.data (View.layout_depart p.view n target c)).trans
      (Layout.data_depart hc hstarted hempty)
  | release c n info =>
    obtain rfl : c.shard = s := Option.some_inj.mp hs
    obtain ⟨-, hinactive, -⟩ := hguard
    exact (congrArg Layout.data (View.layout_vacate p.view n c)).trans
      (Layout.data_vacate (hv.linked _) hfit.1 hfit.2 hinactive)
  | install c n =>
    obtain rfl : c.shard = s := Option.some_inj.mp hs
    exact (congrArg Layout.data (View.layout_occupy p.view n c)).trans
      (Layout.data_fill hfit.2.1 rfl)
  | create c n =>
    obtain rfl : c.shard = s := Option.some_inj.mp hs
    obtain ⟨-, -, -, -, hempty, -⟩ := hfit
    exact (congrArg Layout.data (View.layout_occupy (p.view.queue c) n c)).trans
      (Layout.data_fill hempty rfl)
  | record t a => cases hs
  | start | surrender | handOver | forget => exact hguard.2.elim

theorem Runs.data_eq (h : Runs P.Arranges p q) (hp : p.Sound) (s : ShardId) :
    q.view.data s = p.view.data s :=
  h.invariant_of_sound hp (I := fun u => u.view.data s = p.view.data s) rfl
    fun _ _ _ hu hsame hfit hguard => (data_apply hu hfit hguard s).trans hsame

/-- Commands and placements leave the active primary on its node. -/
theorem primaryNode?_apply (hp : p.Sound) (hfit : ch.Fits p.state.metadata p.view)
    (hguard : P.Arranges p ch) (s : ShardId) :
    (ch.apply p).view.primaryNode? s = p.view.primaryNode? s :=
  hp.view.primaryNode?_congr (hp.apply hfit).view (data_apply hp hfit hguard s)

end Pass

end ShardAllocation
