/-
Primaries that are never filled with nothing.

Once the primary of a shard had a full set of data, it is active, or it waits and is known
to be lost.  A pass keeps it so and places no fresh primary for the shard, as long as no
command gives the lost data up.

* `Keeps` — an active primary, or a lost one that waits;
* `Keeps.release`, `Keeps.takeOver`, ... — the changes of a shard keep it;
* `keeps_apply` — so does every change of a pass;
* `initialized_of_mem_onView` — which changes place a copy.
-/
import ShardAllocation.Proofs.Pass.Leads

namespace ShardAllocation

namespace View

variable {v : View} {s : ShardId} {n k : NodeId} {c : Copy} {m : Metadata}
variable {info : UnassignedInfo}

/-- The primary of the shard is active, or it waits and its data is known to be lost. -/
structure Keeps (v : View) (s : ShardId) : Prop where
  held : ∀ n c, v.copyOn? s n = some c → c.primary = true →
    c.isActive = true ∨ c.isRelocationTarget = true
  waiting : ∀ c ∈ v.unassigned, c.shard = s → c.primary = true → Pass.isLostPrimary c = true

namespace Keeps

theorem settle (h : v.Keeps c.shard) : (v.settle n c).Keeps c.shard := by
  constructor
  · intro k d hd hprim
    rw [layout_settle] at hd
    rcases Layout.settle_eq_some.mp hd with ⟨-, rfl⟩ | ⟨-, -, hd⟩
    · exact .inl rfl
    · exact h.held k d hd hprim
  · rw [(sameFrame_settle v n c).unassigned]
    exact h.waiting

theorem depart (h : v.Keeps c.shard) (hnode : c.node = some n) :
    (v.depart n k c).Keeps c.shard := by
  constructor
  · intro j d hd hprim
    rw [layout_depart] at hd
    rcases Layout.depart_eq_some.mp hd with ⟨-, rfl⟩ | ⟨-, -, rfl⟩ | ⟨-, -, hd⟩
    · exact .inl rfl
    · exact .inr (Copy.isRelocationTarget_iff.mpr ⟨rfl, by rw [Copy.arriving, hnode]; rfl⟩)
    · exact h.held j d hd hprim
  · exact h.waiting

theorem vacate (h : v.Keeps c.shard) : (v.vacate n c).Keeps c.shard := by
  constructor
  · intro k d hd hprim
    rw [layout_vacate] at hd
    exact h.held k d (Layout.vacate_eq_some.mp hd).2.2 hprim
  · rw [(sameFrame_vacate v n c).unassigned]
    exact h.waiting

/-- The slot of an active primary remembers that there was data. -/
theorem release (h : v.Keeps c.shard) (hc : v.copyOn? c.shard n = some c)
    (ht : c.isRelocationTarget = false) : (v.release n c info).Keeps c.shard := by
  have hvacated := h.vacate (n := n)
  refine ⟨hvacated.held, fun d hd hshard hprim => ?_⟩
  rcases List.mem_append.mp hd with hd | hd
  · exact hvacated.waiting d hd hshard hprim
  · obtain rfl := List.mem_singleton.mp hd
    have hprim : c.primary = true := hprim
    have hactive : c.isActive = true := by
      rcases h.held n c hc hprim with hactive | htarget
      · exact hactive
      · rw [ht] at htarget
        cases htarget
    simp [Pass.isLostPrimary, Copy.slot, Copy.newUnassigned, hprim, hactive]

/-- The replica that takes over is active, and no other primary slot is left. -/
theorem takeOver (h : v.Keeps s) (hv : v.Consistent) : (v.takeOver s).Keeps s := by
  rcases takeOver_cases hv s with ⟨-, heq⟩ | ⟨r, k, -, rfl, hr, -, hactive, -, heq⟩
  · rw [heq]
    exact h
  rw [heq]
  constructor
  · -- on nodes: the replica that took over, the other end of its move, and the copies as before
    intro j d hd hprim
    have hd : (v.promote k r).copyOn? r.shard j = some d := hd
    rw [layout_promote (hv.linked _) hr] at hd
    obtain ⟨e, he, rfl⟩ := Layout.promote_eq_some.mp hd
    by_cases hj : j = k ∨ r.peer = some j
    · rw [if_pos hj]
      rcases hj with rfl | hp
      · obtain rfl : r = e := Option.some_inj.mp (hr.symm.trans he)
        exact .inl hactive
      · have hother := (hv.linked _).isRelocationTarget_peer hr hp he
        rw [Copy.isRelocationTarget_of_active hactive] at hother
        exact .inr hother
    · rw [if_neg hj] at hprim ⊢
      exact h.held j e he hprim
  · -- among the slots that wait: those that were primary are demoted
    intro d hd hshard hprim
    obtain ⟨e, -, rfl⟩ := List.mem_map.mp hd
    split at hshard
    next hdemoted =>
      rw [if_pos hdemoted] at hprim
      cases hprim
    next hdemoted =>
      rw [if_neg hdemoted] at hprim
      exact absurd (by simp [hshard, hprim]) hdemoted

theorem occupy (h : v.Keeps c.shard) (hprim : c.primary = false) :
    (v.occupy n c).Keeps c.shard := by
  constructor
  · intro k d hd hprim'
    rw [layout_occupy] at hd
    rcases Layout.fill_eq_some.mp hd with ⟨-, rfl⟩ | ⟨-, hd⟩
    · rw [Copy.placedOn, hprim] at hprim'
      cases hprim'
    · exact h.held k d hd hprim'
  · exact fun d hd => h.waiting d (List.mem_of_mem_erase hd)

theorem queue (h : v.Keeps c.shard) (hprim : c.primary = false) :
    (v.queue c).Keeps c.shard := by
  refine ⟨h.held, fun d hd hshard hprim' => ?_⟩
  rcases List.mem_append.mp hd with hd | hd
  · exact h.waiting d hd hshard hprim'
  · rw [List.mem_singleton.mp hd, hprim] at hprim'
    cases hprim'

end Keeps

/-! ### The copies that are placed -/

theorem initialized_of_mem_takeOver {t : Transition} (hv : v.Consistent)
    (ht : t ∈ (v.takeOver s).transitions) : t ∈ v.transitions ∨ ∃ n, t = .promoted s n := by
  rcases takeOver_cases hv s with ⟨-, heq⟩ | ⟨r, n, -, -, -, -, -, -, heq⟩
  · rw [heq] at ht
    exact .inl ht
  · rw [heq] at ht
    have hframe : ((v.promote n r).demoteSlots r.shard).transitions = v.transitions :=
      (sameFrame_promote v n r).transitions
    rcases List.mem_append.mp ht with ht | ht
    · exact .inl (hframe ▸ ht)
    · exact .inr ⟨n, List.mem_singleton.mp ht⟩

theorem initialized_of_mem_noted {w : View} {t : Transition} {primary : Bool}
    {source : Option NodeId} (hframe : w.transitions = v.transitions)
    (ht : .initialized s n primary source ∈ (w.noted t).transitions)
    (hne : t ≠ .initialized s n primary source) :
    .initialized s n primary source ∈ v.transitions := by
  rcases List.mem_append.mp ht with ht | ht
  · exact hframe ▸ ht
  · exact absurd (List.mem_singleton.mp ht).symm hne

/-- Only a slot that is filled gives a copy that is placed. -/
theorem initialized_of_mem_onView {ch : Change} (hv : v.Consistent) (hfit : ch.Fits m v)
    {primary : Bool} {source : Option NodeId}
    (ht : .initialized s n primary source ∈ (ch.onView v).transitions) :
    .initialized s n primary source ∈ v.transitions ∨
      ∃ c, (ch = .install c n ∨ ch = .create c n) ∧ c.shard = s ∧ c.primary = primary := by
  have hsettle := fun c k => (sameFrame_settle v k c).transitions
  have hvacate := fun c k => (sameFrame_vacate v k c).transitions
  cases ch with
  | start c k => exact .inl (initialized_of_mem_noted (hsettle c k) ht (by simp))
  | cancel c k => exact .inl (initialized_of_mem_noted (hsettle c k) ht (by simp))
  | relocate c k target =>
    have hdepart := (sameFrame_depart v k target c).transitions
    exact .inl (initialized_of_mem_noted hdepart ht (by simp))
  | release c k info => exact .inl (initialized_of_mem_noted (hvacate c k) ht (by simp))
  | surrender c k info =>
    have hreleased : (v.release k c info).Consistent := hv.release hfit.1
    rcases initialized_of_mem_takeOver hreleased ht with ht | ⟨j, heq⟩
    · exact .inl (initialized_of_mem_noted (hvacate c k) ht (by simp))
    · cases heq
  | handOver c k =>
    have hvacated : ((v.vacate k c).noted (.dropped c.shard k)).Consistent :=
      hv.drop hfit.1
    rcases initialized_of_mem_takeOver hvacated ht with ht | ⟨j, heq⟩
    · exact .inl (initialized_of_mem_noted (hvacate c k) ht (by simp))
    · cases heq
  | install c k =>
    rcases List.mem_append.mp ht with ht | ht
    · exact .inl ht
    · cases List.mem_singleton.mp ht
      exact .inr ⟨c, .inl rfl, rfl, rfl⟩
  | create c k =>
    rcases List.mem_append.mp ht with ht | ht
    · exact .inl ht
    · cases List.mem_singleton.mp ht
      exact .inr ⟨c, .inr rfl, rfl, rfl⟩
  | forget k => exact .inl ht
  | record t a => exact .inl ht

end View

namespace Pass

variable {P : Policy} {p : Pass} {ch : Change} {s : ShardId}

/-- A lost primary is placed only if a command gives its data up. -/
theorem Policy.Admits.primary_eq_false {c : Copy} {n : NodeId} (h : P.Admits p (.install c n))
    (hforced : ¬P.forced c.shard) (hkeeps : p.view.Keeps c.shard) (hmem : c ∈ p.view.unassigned) :
    c.primary = false := by
  by_contra hprim
  rw [Bool.not_eq_false] at hprim
  exact hforced (h.2 (hkeeps.waiting c hmem rfl hprim))

theorem keeps_apply (hp : p.Sound) (hfit : ch.Fits p.state.metadata p.view)
    (hguard : P.Completes p ch ∨ P.Admits p ch) (hforced : ¬P.forced s) (h : p.view.Keeps s) :
    (ch.apply p).view.Keeps s := by
  have hv := hp.view.consistent
  by_cases hs : ch.shard? = some s
  swap
  · -- the copies and the slots of the shard are as before
    constructor
    · intro n c hc
      rw [Change.apply, View.copyOn?_onView_of_ne hv hfit hs] at hc
      exact h.held n c hc
    · rintro c hc rfl
      exact h.waiting c ((View.mem_unassigned_onView_of_ne hv hfit hs).mp hc) rfl
  cases ch with
  | start c n =>
    obtain rfl : c.shard = s := Option.some_inj.mp hs
    have hdone := h.settle (n := n)
    exact ⟨hdone.held, hdone.waiting⟩
  | cancel c n =>
    obtain rfl : c.shard = s := Option.some_inj.mp hs
    have hdone := h.settle (n := n)
    exact ⟨hdone.held, hdone.waiting⟩
  | relocate c n target =>
    obtain rfl : c.shard = s := Option.some_inj.mp hs
    have hdone := h.depart (k := target) (hv.own hfit.1).2
    exact ⟨hdone.held, hdone.waiting⟩
  | release c n info =>
    obtain rfl : c.shard = s := Option.some_inj.mp hs
    exact h.release hfit.1 hfit.2
  | surrender c n info =>
    obtain rfl : c.shard = s := Option.some_inj.mp hs
    exact (h.release hfit.1 hfit.2.1).takeOver (hv.release hfit.1)
  | handOver c n =>
    obtain rfl : c.shard = s := Option.some_inj.mp hs
    have hvacated := h.vacate (n := n)
    have hnoted : ((p.view.vacate n c).noted (.dropped c.shard n)).Keeps c.shard :=
      ⟨hvacated.held, hvacated.waiting⟩
    exact hnoted.takeOver (hv.drop hfit.1)
  | install c n =>
    obtain rfl : c.shard = s := Option.some_inj.mp hs
    -- the slot is of a replica, for the primary is lost and no command gave it up
    have hprim := Policy.Admits.primary_eq_false (hguard.resolve_left id) hforced h hfit.1
    have hdone := h.occupy (n := n) hprim
    exact ⟨hdone.held, hdone.waiting⟩
  | create c n =>
    obtain rfl : c.shard = s := Option.some_inj.mp hs
    have hprim : c.primary = false := hfit.2.2.1
    have hdone := (h.queue hprim).occupy (n := n) hprim
    exact ⟨hdone.held, hdone.waiting⟩
  | forget n => cases hs
  | record t a => cases hs

/-- No fresh primary is placed for the shard. -/
def Quiet (p : Pass) (s : ShardId) : Prop :=
  ∀ n source, Transition.initialized s n true source ∉ p.view.transitions

theorem quiet_apply (hp : p.Sound) (hfit : ch.Fits p.state.metadata p.view)
    (hguard : P.Completes p ch ∨ P.Admits p ch) (hforced : ¬P.forced s) (h : p.view.Keeps s)
    (hquiet : p.Quiet s) : (ch.apply p).Quiet s := by
  intro n source hmem
  rcases View.initialized_of_mem_onView hp.view.consistent hfit hmem with
    hmem | ⟨c, rfl | rfl, rfl, hprim⟩
  · exact hquiet n source hmem
  · rw [Policy.Admits.primary_eq_false (hguard.resolve_left id) hforced h hfit.1] at hprim
    cases hprim
  · obtain ⟨-, -, hreplica, -⟩ := hfit
    rw [hreplica] at hprim
    cases hprim

end Pass

end ShardAllocation
