/-
Where a shard has a full set of data.

A copy with a full set of data never loses it: it stays active while it moves, and when its
move is complete the data is on the target.  So as long as it does not leave its node, or a
replica takes over, a shard keeps an active copy under every change.

* `HasActive` — an active copy, whose node and role satisfy a condition;
* `HasActive.settle`, `HasActive.depart`, `HasActive.fill` — it is kept on a layout;
* `hasActive_onView` — it is kept by the changes of a pass;
* `isActive_of_onView` — data comes to a node only when a recovery there is complete;
* `ActivePrimary` — the condition that the active copy is the primary.
-/
import ShardAllocation.Proofs.Pass.Change

namespace ShardAllocation

namespace Layout

/-- A copy with a full set of data is on a node, and node and role satisfy `P`. -/
def HasActive (P : NodeId → Bool → Prop) (f : Layout) : Prop :=
  ∃ n c, f n = some c ∧ c.isActive = true ∧ P n c.primary

namespace HasActive

variable {P : NodeId → Bool → Prop} {s : ShardId} {f : Layout} {n m : NodeId} {c : Copy}

theorem settle (h : HasActive P f) (hlinked : Linked s f) (hc : f n = some c)
    (hmove : c.state = .initializing → ∀ k, P k c.primary → P n c.primary) :
    HasActive P (Layout.settle f n c) := by
  obtain ⟨k, d, hd, hactive, hP⟩ := h
  by_cases hk : k = n
  · subst hk
    obtain rfl : c = d := Option.some_inj.mp (hc.symm.trans hd)
    exact ⟨k, c.settled, settle_eq_some.mpr (.inl ⟨rfl, rfl⟩), rfl, hP⟩
  · by_cases hp : c.peer = some k
    · -- the data was at the source, and now it is at the target
      obtain ⟨e, he, -, hprim, -⟩ := hlinked.exists_peer hc hp
      obtain rfl : d = e := Option.some_inj.mp (hd.symm.trans he)
      have hother := hlinked.isRelocationTarget_peer hc hp hd
      rw [Copy.isRelocationTarget_of_active hactive] at hother
      have htarget : c.isRelocationTarget = true := by simpa using hother.symm
      have hinit := (Copy.isRelocationTarget_iff.mp htarget).1
      rw [hprim] at hP
      exact ⟨n, c.settled, settle_eq_some.mpr (.inl ⟨rfl, rfl⟩), rfl, hmove hinit k hP⟩
    · exact ⟨k, d, settle_eq_some.mpr (.inr ⟨hk, hp, hd⟩), hactive, hP⟩

theorem depart (h : HasActive P f) (hc : f n = some c) (hm : f m = none) :
    HasActive P (Layout.depart f n m c) := by
  obtain ⟨k, d, hd, hactive, hP⟩ := h
  by_cases hk : k = n
  · subst hk
    obtain rfl : c = d := Option.some_inj.mp (hc.symm.trans hd)
    exact ⟨k, c.departing m, depart_eq_some.mpr (.inl ⟨rfl, rfl⟩), rfl, hP⟩
  · have hkm : k ≠ m := fun heq => by rw [heq, hm] at hd; cases hd
    exact ⟨k, d, depart_eq_some.mpr (.inr (.inr ⟨hk, hkm, hd⟩)), hactive, hP⟩

theorem fill (h : HasActive P f) (hn : f n = none) : HasActive P (Layout.fill f n c) := by
  obtain ⟨k, d, hd, hrest⟩ := h
  have hkn : k ≠ n := fun heq => by rw [heq, hn] at hd; cases hd
  exact ⟨k, d, fill_eq_some.mpr (.inr ⟨hkn, hd⟩), hrest⟩

end HasActive

end Layout

namespace View

variable {P : NodeId → Bool → Prop} {v : View} {s : ShardId} {n : NodeId} {c : Copy}
variable {m : Metadata}

/-- The primary of the shard has a full set of data. -/
def ActivePrimary (v : View) (s : ShardId) : Prop :=
  Layout.HasActive (fun _ primary => primary = true) (v.copyOn? s)

/-- A copy that takes over is an active primary. -/
theorem hasActive_promote (h : v.Consistent) (hc : v.copyOn? c.shard n = some c)
    (hactive : c.isActive = true) (hP : P n true) :
    Layout.HasActive P ((v.promote n c).copyOn? c.shard) := by
  refine ⟨n, c.asPrimary, ?_, hactive, hP⟩
  rw [layout_promote (h.linked _) hc]
  exact Layout.promote_eq_some.mpr ⟨c, hc, by rw [if_pos (.inl rfl)]⟩

/-- What stays after a copy that is no target of a move has left its node. -/
theorem hasActive_vacate (h : v.Consistent) (hc : v.copyOn? c.shard n = some c)
    (ht : c.isRelocationTarget = false)
    (hstays : ∃ k d, k ≠ n ∧ v.copyOn? c.shard k = some d ∧ d.isActive = true ∧ P k d.primary) :
    Layout.HasActive P ((v.vacate n c).copyOn? c.shard) := by
  obtain ⟨k, d, hne, hd, hrest⟩ := hstays
  refine ⟨k, d, ?_, hrest⟩
  rw [layout_vacate]
  exact (h.linked _).vacate_of_active hc ht hd hrest.1 hne

theorem hasActive_takeOver (h : v.Consistent) (hP : ∀ k, v.isLive k = true → P k true)
    (hs : Layout.HasActive P (v.copyOn? s)) :
    Layout.HasActive P ((v.takeOver s).copyOn? s) := by
  rcases takeOver_cases h s with ⟨-, heq⟩ | ⟨r, k, -, rfl, hr, -, hactive, hlive, heq⟩
  · rw [heq]
    exact hs
  · rw [heq]
    exact hasActive_promote h hr hactive (hP k hlive)

theorem hasActive_handOver (h : v.Sound m) (hc : v.copyOn? c.shard n = some c)
    (ht : c.isRelocationTarget = false) (hprim : c.primary = true)
    (hcan : v.promotable c.shard ≠ []) (hP : ∀ k, v.isLive k = true → P k true) :
    Layout.HasActive P ((v.handOver n c).copyOn? c.shard) := by
  obtain ⟨r, k, hshard, hr, -, hactive, hlive, heq⟩ := h.handOver_spec hc ht hprim hcan
  have hw : ((v.vacate n c).noted (.dropped c.shard n)).Consistent :=
    h.consistent.drop hc
  have hdone := hasActive_promote hw hr hactive (hP k hlive)
  rw [hshard] at hdone
  rw [heq]
  exact hdone

/-- An active copy is left somewhere by every change, if it is not the copy that leaves its
node, and if a move that is complete takes it where it may be. -/
theorem hasActive_onView (h : v.Sound m) {ch : Change} (hfit : ch.Fits m v)
    (hP : ∀ k, v.isLive k = true → P k true)
    (hstart : ∀ c n, ch = .start c n → c.shard = s → ∀ k, P k c.primary → P n c.primary)
    (hleave : ∀ c n info, ch = .release c n info ∨ ch = .surrender c n info → c.shard = s →
      ∃ k d, k ≠ n ∧ v.copyOn? s k = some d ∧ d.isActive = true ∧ P k d.primary)
    (hactive : Layout.HasActive P (v.copyOn? s)) :
    Layout.HasActive P ((ch.onView v).copyOn? s) := by
  have hv := h.consistent
  by_cases hs : ch.shard? = some s
  swap
  · -- the change is about another shard
    rw [copyOn?_onView_of_ne hv hfit hs]
    exact hactive
  cases ch with
  | start c n =>
    obtain rfl : c.shard = s := Option.some_inj.mp hs
    show Layout.HasActive P ((v.settle n c).copyOn? c.shard)
    rw [layout_settle]
    exact hactive.settle (hv.linked _) hfit.1 fun _ => hstart c n rfl rfl
  | cancel c n =>
    obtain rfl : c.shard = s := Option.some_inj.mp hs
    show Layout.HasActive P ((v.settle n c).copyOn? c.shard)
    rw [layout_settle]
    refine hactive.settle (hv.linked _) hfit.1 fun hinit => ?_
    -- a move that is called off is called off at its source
    rw [hfit.2] at hinit
    cases hinit
  | relocate c n target =>
    obtain rfl : c.shard = s := Option.some_inj.mp hs
    show Layout.HasActive P ((v.depart n target c).copyOn? c.shard)
    rw [layout_depart]
    exact hactive.depart hfit.1 hfit.2.2.1
  | release c n info =>
    obtain rfl : c.shard = s := Option.some_inj.mp hs
    exact hasActive_vacate hv hfit.1 hfit.2 (hleave c n info (.inl rfl) rfl)
  | surrender c n info =>
    obtain rfl : c.shard = s := Option.some_inj.mp hs
    have hreleased : (v.release n c info).Consistent := hv.release hfit.1
    refine hasActive_takeOver hreleased (fun k hk => hP k ?_)
      (hasActive_vacate hv hfit.1 hfit.2.1 (hleave c n info (.inr rfl) rfl))
    -- the members are the same while the copy leaves
    exact (congrArg (·.contains k) (sameFrame_vacate v n c).live).symm.trans hk
  | handOver c n =>
    obtain rfl : c.shard = s := Option.some_inj.mp hs
    obtain ⟨hc, ht, hprim, hcan⟩ := hfit
    exact hasActive_handOver h hc ht hprim hcan hP
  | install c n =>
    obtain rfl : c.shard = s := Option.some_inj.mp hs
    show Layout.HasActive P ((v.occupy n c).copyOn? c.shard)
    rw [layout_occupy]
    exact hactive.fill hfit.2.1
  | create c n =>
    obtain rfl : c.shard = s := Option.some_inj.mp hs
    obtain ⟨-, -, -, -, hempty, -⟩ := hfit
    show Layout.HasActive P (((v.queue c).occupy n c).copyOn? c.shard)
    rw [layout_occupy]
    exact hactive.fill hempty
  | forget n => cases hs
  | record t a => cases hs

/-- A replica that takes over changes its role only. -/
theorem isActive_of_takeOver {d : Copy} (h : v.Consistent)
    (hd : (v.takeOver s).copyOn? s n = some d) :
    ∃ e, v.copyOn? s n = some e ∧ e.isActive = d.isActive := by
  rcases takeOver_cases h s with ⟨-, heq⟩ | ⟨r, k, -, rfl, hr, -, -, -, heq⟩
  · exact ⟨d, heq ▸ hd, rfl⟩
  · rw [heq] at hd
    have hd : (v.promote k r).copyOn? r.shard n = some d := hd
    rw [layout_promote (h.linked _) hr] at hd
    obtain ⟨e, he, rfl⟩ := Layout.promote_eq_some.mp hd
    exact ⟨e, he, by split <;> rfl⟩

/-- A copy with a full set of data has it from before, unless the change completes it. -/
theorem isActive_of_onView {d : Copy} (h : v.Consistent) {ch : Change} (hfit : ch.Fits m v)
    (hstart : ∀ c n, ch = .start c n → c.shard ≠ s)
    (hd : (ch.onView v).copyOn? s n = some d) (hactive : d.isActive = true) :
    ∃ e, v.copyOn? s n = some e ∧ e.isActive = true := by
  by_cases hs : ch.shard? = some s
  swap
  · rw [copyOn?_onView_of_ne h hfit hs] at hd
    exact ⟨d, hd, hactive⟩
  cases ch with
  | start c k => exact absurd (Option.some_inj.mp hs) (hstart c k rfl)
  | cancel c k =>
    obtain rfl : c.shard = s := Option.some_inj.mp hs
    have hd : (v.settle k c).copyOn? c.shard n = some d := hd
    rw [layout_settle] at hd
    rcases Layout.settle_eq_some.mp hd with ⟨rfl, rfl⟩ | ⟨-, -, hd⟩
    · exact ⟨c, hfit.1, Copy.isActive_iff.mpr (.inr hfit.2)⟩
    · exact ⟨d, hd, hactive⟩
  | relocate c k target =>
    obtain rfl : c.shard = s := Option.some_inj.mp hs
    have hd : (v.depart k target c).copyOn? c.shard n = some d := hd
    rw [layout_depart] at hd
    rcases Layout.depart_eq_some.mp hd with ⟨rfl, rfl⟩ | ⟨-, rfl, rfl⟩ | ⟨-, -, hd⟩
    · exact ⟨c, hfit.1, Copy.isActive_iff.mpr (.inl hfit.2.1)⟩
    · cases hactive
    · exact ⟨d, hd, hactive⟩
  | release c k info =>
    obtain rfl : c.shard = s := Option.some_inj.mp hs
    have hd : (v.vacate k c).copyOn? c.shard n = some d := hd
    rw [layout_vacate] at hd
    exact ⟨d, (Layout.vacate_eq_some.mp hd).2.2, hactive⟩
  | surrender c k info =>
    obtain rfl : c.shard = s := Option.some_inj.mp hs
    obtain ⟨e, he, heq⟩ := isActive_of_takeOver (h.release hfit.1) hd
    have he : (v.vacate k c).copyOn? c.shard n = some e := he
    rw [layout_vacate] at he
    exact ⟨e, (Layout.vacate_eq_some.mp he).2.2, heq.trans hactive⟩
  | handOver c k =>
    obtain rfl : c.shard = s := Option.some_inj.mp hs
    obtain ⟨e, he, heq⟩ := isActive_of_takeOver (h.drop hfit.1) hd
    have he : (v.vacate k c).copyOn? c.shard n = some e := he
    rw [layout_vacate] at he
    exact ⟨e, (Layout.vacate_eq_some.mp he).2.2, heq.trans hactive⟩
  | install c k =>
    obtain rfl : c.shard = s := Option.some_inj.mp hs
    have hd : (v.occupy k c).copyOn? c.shard n = some d := hd
    rw [layout_occupy] at hd
    rcases Layout.fill_eq_some.mp hd with ⟨rfl, rfl⟩ | ⟨-, hd⟩
    · cases hactive
    · exact ⟨d, hd, hactive⟩
  | create c k =>
    obtain rfl : c.shard = s := Option.some_inj.mp hs
    have hd : ((v.queue c).occupy k c).copyOn? c.shard n = some d := hd
    rw [layout_occupy] at hd
    rcases Layout.fill_eq_some.mp hd with ⟨rfl, rfl⟩ | ⟨-, hd⟩
    · cases hactive
    · exact ⟨d, hd, hactive⟩
  | forget k => cases hs
  | record t a => cases hs

end View

end ShardAllocation
