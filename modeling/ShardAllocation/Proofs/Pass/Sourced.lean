/-
The source of a running recovery.

A replica is filled from the primary of its shard, on the node where the primary was when the
replica was placed.  When that primary goes away, the changes of a pass take the replica down
first.  So once recoveries are completed, the replica on a node keeps its source, or it is no
longer being filled, or it was placed anew.

* `Layout.Serves`, `Layout.Idle` — the primary on a node is active, and nothing is being filled
  on a node, with what every kind of change leaves of them;
* `Sourced` — the alternatives for a replica and its source;
* `sourced_apply` — every admitted change keeps them.
-/
import ShardAllocation.Proofs.Pass.Active
import ShardAllocation.Proofs.Pass.Log
import ShardAllocation.Proofs.Pass.Reports

namespace ShardAllocation

namespace Layout

/-- The primary is on the node and has a full set of data. -/
def Serves (f : Layout) (n : NodeId) : Prop :=
  ∃ c, f n = some c ∧ c.primary = true ∧ c.isActive = true

/-- No replica is being filled on the node. -/
def Idle (f : Layout) (n : NodeId) : Prop :=
  ∀ c, f n = some c → View.isRecoveringReplica c = false

variable {s : ShardId} {f : Layout} {n m k : NodeId} {c : Copy}

namespace Serves

/-- A move that is called off leaves its source active. -/
theorem cancel (h : f.Serves k) (hlinked : Linked s f) (hc : f n = some c)
    (hrel : c.state = .relocating) : (f.settle n c).Serves k := by
  obtain ⟨d, hd, hprim, hactive⟩ := h
  by_cases hk : k = n
  · subst hk
    obtain rfl : c = d := Option.some_inj.mp (hc.symm.trans hd)
    exact ⟨c.settled, settle_eq_some.mpr (.inl ⟨rfl, rfl⟩), hprim, rfl⟩
  · refine ⟨d, settle_eq_some.mpr (.inr ⟨hk, fun hp => ?_, hd⟩), hprim, hactive⟩
    -- what goes along with the source is its target, which has no full set of data
    have hsource : c.isRelocationTarget = false :=
      Copy.isRelocationTarget_of_active (Copy.isActive_iff.mpr (.inr hrel))
    have hother := hlinked.isRelocationTarget_peer hc hp hd
    rw [hsource, Copy.isRelocationTarget_of_active hactive] at hother
    cases hother

theorem depart (h : f.Serves k) (hc : f n = some c) (hm : f m = none) :
    (f.depart n m c).Serves k := by
  obtain ⟨d, hd, hrest⟩ := h
  by_cases hk : k = n
  · subst hk
    obtain rfl : c = d := Option.some_inj.mp (hc.symm.trans hd)
    exact ⟨c.departing m, depart_eq_some.mpr (.inl ⟨rfl, rfl⟩), hrest.1, rfl⟩
  · have hkm : k ≠ m := fun heq => by rw [heq, hm] at hd; cases hd
    exact ⟨d, depart_eq_some.mpr (.inr (.inr ⟨hk, hkm, hd⟩)), hrest⟩

theorem fill (h : f.Serves k) (hn : f n = none) : (f.fill n c).Serves k := by
  obtain ⟨d, hd, hrest⟩ := h
  have hkn : k ≠ n := fun heq => by rw [heq, hn] at hd; cases hd
  exact ⟨d, fill_eq_some.mpr (.inr ⟨hkn, hd⟩), hrest⟩

end Serves

namespace Idle

theorem settle (h : f.Idle k) : (f.settle n c).Idle k := by
  intro d hd
  rcases settle_eq_some.mp hd with ⟨-, rfl⟩ | ⟨-, -, hd⟩
  · simp [View.isRecoveringReplica, Copy.settled, Copy.isInitializing]
  · exact h d hd

theorem vacate (h : f.Idle k) : (f.vacate n c).Idle k := fun d hd =>
  h d (vacate_eq_some.mp hd).2.2

theorem depart (h : f.Idle k) (hnode : c.node = some n) : (f.depart n m c).Idle k := by
  intro d hd
  rcases depart_eq_some.mp hd with ⟨-, rfl⟩ | ⟨-, -, rfl⟩ | ⟨-, -, hd⟩
  · simp [View.isRecoveringReplica, Copy.departing, Copy.isInitializing]
  · simp [View.isRecoveringReplica, Copy.arriving, Copy.isRelocationTarget, Copy.isInitializing,
      hnode]
  · exact h d hd

theorem promote (h : f.Idle k) : (f.promote n c).Idle k := by
  intro d hd
  obtain ⟨e, he, rfl⟩ := promote_eq_some.mp hd
  split
  · rfl
  · exact h e he

theorem fill (h : f.Idle k) (hk : k ≠ n) : (f.fill n c).Idle k := by
  intro d hd
  rcases fill_eq_some.mp hd with ⟨heq, -⟩ | ⟨-, hd⟩
  · exact absurd heq hk
  · exact h d hd

end Idle

end Layout

namespace Pass

variable {P : Policy} {p : Pass} {ch : Change} {s : ShardId} {n k : NodeId} {c : Copy}

/-- The replica on `n` has its source on `k`, or is not being filled, or was placed anew. -/
def Sourced (p : Pass) (s : ShardId) (k n : NodeId) : Prop :=
  Layout.Serves (p.view.copyOn? s) k ∨ Layout.Idle (p.view.copyOn? s) n ∨
    ∃ primary source, Transition.initialized s n primary source ∈ p.view.transitions

theorem idle_takeOver {v : View} (hv : v.Consistent) (h : Layout.Idle (v.copyOn? s) n) :
    Layout.Idle ((v.takeOver s).copyOn? s) n := by
  rcases View.takeOver_cases hv s with ⟨-, heq⟩ | ⟨r, j, -, rfl, hr, -, -, -, heq⟩
  · rw [heq]
    exact h
  · rw [heq]
    show Layout.Idle ((v.promote j r).copyOn? r.shard) n
    rw [View.layout_promote (hv.linked _) hr]
    exact h.promote

/-- Where no replica is being filled, none is after a copy has left its node. -/
theorem idle_of_noRecovering (h : NoRecovering p.view c.shard) :
    Layout.Idle ((p.view.vacate n c).copyOn? c.shard) k := by
  rw [View.layout_vacate]
  exact Layout.Idle.vacate fun d hd => h k d hd

/-- An idle node stays idle, or a copy is placed there. -/
theorem idle_apply (hp : p.Sound) (hfit : ch.Fits p.state.metadata p.view)
    (h : Layout.Idle (p.view.copyOn? s) n) : (ch.apply p).Sourced s k n := by
  have hv := hp.view.consistent
  by_cases hs : ch.shard? = some s
  swap
  · have hsame := View.copyOn?_onView_of_ne hv hfit hs
    exact .inr (.inl (by rw [Change.apply, hsame]; exact h))
  have hplaced : ∀ {c : Copy} {j : NodeId} {source}, n = j →
      ch.notes p.view = [.initialized c.shard j c.primary source] → c.shard = s →
      (ch.apply p).Sourced s k n := by
    rintro c j source rfl hnotes rfl
    refine .inr (.inr ⟨c.primary, source, ?_⟩)
    rw [Change.apply, View.transitions_onView, hnotes]
    exact List.mem_append_right _ (List.mem_singleton_self _)
  cases ch with
  | start c j =>
    obtain rfl : c.shard = s := Option.some_inj.mp hs
    exact .inr (.inl (View.layout_settle p.view j c ▸ h.settle))
  | cancel c j =>
    obtain rfl : c.shard = s := Option.some_inj.mp hs
    exact .inr (.inl (View.layout_settle p.view j c ▸ h.settle))
  | relocate c j target =>
    obtain rfl : c.shard = s := Option.some_inj.mp hs
    exact .inr (.inl (View.layout_depart p.view j target c ▸ h.depart (hv.own hfit.1).2))
  | release c j info =>
    obtain rfl : c.shard = s := Option.some_inj.mp hs
    exact .inr (.inl (View.layout_vacate p.view j c ▸ h.vacate))
  | surrender c j info =>
    obtain rfl : c.shard = s := Option.some_inj.mp hs
    exact .inr (.inl (idle_takeOver (hv.release hfit.1) (View.layout_vacate p.view j c ▸ h.vacate)))
  | handOver c j =>
    obtain rfl : c.shard = s := Option.some_inj.mp hs
    exact .inr (.inl (idle_takeOver (hv.drop hfit.1) (View.layout_vacate p.view j c ▸ h.vacate)))
  | install c j =>
    obtain rfl : c.shard = s := Option.some_inj.mp hs
    by_cases hn : n = j
    · exact hplaced hn rfl rfl
    · exact .inr (.inl (View.layout_occupy p.view j c ▸ h.fill hn))
  | create c j =>
    obtain rfl : c.shard = s := Option.some_inj.mp hs
    by_cases hn : n = j
    · exact hplaced hn rfl rfl
    · exact .inr (.inl (View.layout_occupy (p.view.queue c) j c ▸ h.fill hn))
  | forget j => cases hs
  | record t a => cases hs

/-- An active primary stays on its node, or nothing is filled from it any more. -/
theorem serves_apply (hp : p.Sound) (hfit : ch.Fits p.state.metadata p.view)
    (hadmits : P.Admits p ch) (h : Layout.Serves (p.view.copyOn? s) k) :
    (ch.apply p).Sourced s k n := by
  have hv := hp.view.consistent
  by_cases hs : ch.shard? = some s
  swap
  · have hsame := View.copyOn?_onView_of_ne hv hfit hs
    exact .inl (by rw [Change.apply, hsame]; exact h)
  cases ch with
  | start c j => exact hadmits.elim
  | cancel c j =>
    obtain rfl : c.shard = s := Option.some_inj.mp hs
    exact .inl (View.layout_settle p.view j c ▸ h.cancel (hv.linked _) hfit.1 hfit.2)
  | relocate c j target =>
    obtain rfl : c.shard = s := Option.some_inj.mp hs
    exact .inl (View.layout_depart p.view j target c ▸ h.depart hfit.1 hfit.2.2.1)
  | release c j info =>
    obtain rfl : c.shard = s := Option.some_inj.mp hs
    obtain ⟨d, hd, hprim, hactive⟩ := h
    by_cases hk : k = j
    · -- the primary itself is released, and only where nothing is filled from it
      subst hk
      obtain rfl : c = d := Option.some_inj.mp (hfit.1.symm.trans hd)
      rcases hadmits with hno | ⟨hreplica, -⟩ | ⟨-, -, hfilled⟩
      · rw [hactive] at hno
        cases hno
      · rw [hprim] at hreplica
        cases hreplica
      · exact .inr (.inl (idle_of_noRecovering hfilled))
    · have hstays := (hv.linked _).vacate_of_active hfit.1 hfit.2 hd hactive hk
      exact .inl ⟨d, View.layout_vacate p.view j c ▸ hstays, hprim, hactive⟩
  | surrender c j info =>
    obtain rfl : c.shard = s := Option.some_inj.mp hs
    exact .inr (.inl (idle_takeOver (hv.release hfit.1) (idle_of_noRecovering hadmits.2)))
  | handOver c j =>
    obtain rfl : c.shard = s := Option.some_inj.mp hs
    exact .inr (.inl (idle_takeOver (hv.drop hfit.1) (idle_of_noRecovering hadmits)))
  | install c j =>
    obtain rfl : c.shard = s := Option.some_inj.mp hs
    exact .inl (View.layout_occupy p.view j c ▸ h.fill hfit.2.1)
  | create c j =>
    obtain rfl : c.shard = s := Option.some_inj.mp hs
    obtain ⟨-, -, -, -, hempty, -⟩ := hfit
    exact .inl (View.layout_occupy (p.view.queue c) j c ▸ h.fill hempty)
  | forget j => cases hs
  | record t a => cases hs

/-- Every change but a completed recovery keeps the source of a recovery. -/
theorem sourced_apply (hp : p.Sound) (hfit : ch.Fits p.state.metadata p.view)
    (hadmits : P.Admits p ch) (h : p.Sourced s k n) : (ch.apply p).Sourced s k n := by
  rcases h with hserves | hidle | ⟨primary, source, hmem⟩
  · exact serves_apply hp hfit hadmits hserves
  · exact idle_apply hp hfit hidle
  · refine .inr (.inr ⟨primary, source, ?_⟩)
    rw [Change.apply, View.transitions_onView]
    exact List.mem_append_left _ hmem

end Pass

end ShardAllocation
