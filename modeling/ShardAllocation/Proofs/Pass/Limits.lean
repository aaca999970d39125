/-
A pass keeps to the limits on recoveries.

Copies that are completed or cleared only make room.  A copy is placed, or begins to move, when
every decider says yes, and the decider of each limit says so only while the number is below
it; the copy then takes one of each number that it counts for.  The deciders look at more than
the numbers do: a fresh primary is among the copies that initialize on its node, and the
replicas that are filled from a node are among those that it is read by.

* `MakesRoom`, `lighter_onView` — the changes that place nothing make no number larger;
* `Approves.room_of_slot`, `Approves.room_of_move` — what the deciders leave room for;
* `WithinLimits.apply_of_places` — a change that places a copy keeps to the limits;
* `Course.withinLimits` — so does a pass without commands.
-/
import ShardAllocation.Proofs.Pass.Phases
import ShardAllocation.Proofs.Pass.Strictness
import ShardAllocation.Proofs.Routing.Quota

namespace ShardAllocation

namespace Pass

variable {p q : Pass} {P : Policy} {ds : List Decider} {ch : Change} {c : Copy} {n k : NodeId}
variable {quota : Quota}

/-- No number of the view is above its limit. -/
def WithinLimits (p : Pass) : Prop :=
  ∀ quota : Quota, p.view.taken quota ≤ quota.limit p.settings

/-! ### What makes room -/

/-- The change fills no slot and begins no move. -/
def MakesRoom : Change → Prop
  | .relocate .. | .install .. | .create .. => False
  | _ => True

/-- A change that places nothing makes no number larger. -/
theorem lighter_onView {m : Metadata} {v : View} (hv : v.Consistent) (hfit : ch.Fits m v)
    (hroom : MakesRoom ch) : v.Lighter (ch.onView v) := by
  cases ch with
  | start c n => exact View.Lighter.settle v n c
  | cancel c n => exact View.Lighter.settle v n c
  | release c n info => exact View.Lighter.vacate v n c
  | surrender c n info =>
    have hreleased : v.Lighter (v.release n c info) := View.Lighter.vacate v n c
    exact hreleased.trans (View.Lighter.takeOver (hv.release hfit.1) c.shard)
  | handOver c n =>
    have hvacated : v.Lighter ((v.vacate n c).noted (.dropped c.shard n)) :=
      View.Lighter.vacate v n c
    exact hvacated.trans (View.Lighter.takeOver (hv.drop hfit.1) c.shard)
  | forget n => exact View.Lighter.forget hfit.2
  | record s a => exact View.Lighter.refl v
  | relocate c n k => exact hroom.elim
  | install c n => exact hroom.elim
  | create c n => exact hroom.elim

/-! ### What the deciders leave room for -/

/-- The deciders that look at recoveries say yes only below their limits. -/
theorem Approves.below (h : Approves ds p c n) (hthrottling : Decider.throttling ∈ ds)
    (hconcurrent : Decider.concurrentRecoveries ∈ ds) :
    p.view.countInState .initializing < p.settings.clusterConcurrentRecoveries ∧
      if c.primary && c.isUnassigned then
        p.view.initializingPrimaries n < p.settings.nodeInitialPrimariesRecoveries
      else p.view.incomingRecoveries n < p.settings.nodeConcurrentRecoveries ∧
        ∀ source, Decider.sourceNode? c p = some source →
          p.view.outgoingRecoveries source < p.settings.nodeConcurrentRecoveries := by
  obtain ⟨node, hnode, hyes⟩ := h
  obtain ⟨rfl, -⟩ := node?_eq_some hnode
  rw [Decider.allocation_eq_yes_iff] at hyes
  exact ⟨Decider.concurrentRecoveries_eq_yes_iff.mp (hyes _ hconcurrent),
    Decider.throttling_eq_yes_iff.mp (hyes _ hthrottling)⟩

/-- A slot is filled only where each number that the copy counts for is below its limit. -/
theorem Approves.room_of_slot (h : Approves ds p c n) (hp : p.Sound)
    (hthrottling : Decider.throttling ∈ ds) (hconcurrent : Decider.concurrentRecoveries ∈ ds)
    (hs : c.state = .unassigned) (quota : Quota)
    (hcounts : quota.counts (c.placedOn n) = true) :
    p.view.taken quota < quota.limit p.settings := by
  have hv := hp.view.consistent
  obtain ⟨hcluster, hnode⟩ := h.below hthrottling hconcurrent
  have hwaits : c.isUnassigned = true := by rw [Copy.isUnassigned, hs]; rfl
  rw [hwaits, Bool.and_true] at hnode
  cases quota with
  | initializing =>
    rw [← View.countInState_initializing]
    exact hcluster
  | freshPrimaries m =>
    obtain ⟨hprim, rfl⟩ : c.primary = true ∧ n = m := by
      simpa [Quota.counts, Copy.isFreshPrimary, Copy.placedOn, Copy.isInitializing,
        Copy.isRelocationTarget] using hcounts
    rw [if_pos hprim] at hnode
    rw [View.taken_freshPrimaries hv]
    exact hnode
  | recoveries m =>
    obtain ⟨hprim, rfl⟩ : c.primary = false ∧ n = m := by
      simpa [Quota.counts, Copy.isFreshPrimary, Copy.placedOn, Copy.isInitializing,
        Copy.isRelocationTarget] using hcounts
    rw [if_neg (by simp [hprim])] at hnode
    exact Nat.lt_of_le_of_lt (View.taken_recoveries_le hv n) hnode.1
  | departures m => simp [Quota.counts, Copy.placedOn, Copy.isRelocating] at hcounts

/-- A copy moves only where each number that a half of the move counts for is below its limit. -/
theorem Approves.room_of_move (h : Approves ds p c k) (hp : p.Sound)
    (hthrottling : Decider.throttling ∈ ds) (hconcurrent : Decider.concurrentRecoveries ∈ ds)
    (hs : c.state = .started) (hn : c.node = some n) (quota : Quota)
    (hcounts : (quota.counts (c.departing k) || quota.counts (c.arriving k)) = true) :
    p.view.taken quota < quota.limit p.settings := by
  have hv := hp.view.consistent
  obtain ⟨hcluster, hnode⟩ := h.below hthrottling hconcurrent
  have hassigned : c.isUnassigned = false := by rw [Copy.isUnassigned, hs]; rfl
  have hsource : Decider.sourceNode? c p = some n := by
    rw [Decider.sourceNode?, hassigned]
    exact hn
  rw [hassigned, Bool.and_false, if_neg Bool.false_ne_true] at hnode
  obtain ⟨hincoming, houtgoing⟩ := hnode
  cases quota with
  | initializing =>
    rw [← View.countInState_initializing]
    exact hcluster
  | freshPrimaries m =>
    -- a target is no fresh primary
    simp [Quota.counts, Copy.isFreshPrimary, Copy.departing, Copy.arriving, Copy.isInitializing,
      Copy.isRelocationTarget, hn] at hcounts
  | recoveries m =>
    obtain rfl : k = m := by
      simpa [Quota.counts, Copy.isFreshPrimary, Copy.departing, Copy.arriving,
        Copy.isInitializing, Copy.isRelocationTarget, hn] using hcounts
    exact Nat.lt_of_le_of_lt (View.taken_recoveries_le hv k) hincoming
  | departures m =>
    obtain rfl : n = m := by
      simpa [Quota.counts, Copy.departing, Copy.arriving, Copy.isRelocating, hn] using hcounts
    exact Nat.lt_of_le_of_lt (View.taken_departures_le hv n) (houtgoing n hsource)

/-! ### Whole runs -/

/-- Room for one more is enough. -/
theorem le_limit_of_room {v : View} {limit : Nat} {b : Bool}
    (hle : v.taken quota ≤ p.view.taken quota + b.toNat) (hbefore : p.view.taken quota ≤ limit)
    (hroom : b = true → p.view.taken quota < limit) : v.taken quota ≤ limit := by
  cases b with
  | false => exact Nat.le_trans hle hbefore
  | true => exact Nat.le_trans hle (hroom rfl)

theorem WithinLimits.apply_of_places (h : p.WithinLimits) (hp : p.Sound)
    (hthrottling : Decider.throttling ∈ P.deciders)
    (hconcurrent : Decider.concurrentRecoveries ∈ P.deciders)
    (hfit : ch.Fits p.state.metadata p.view) (hplaces : P.Places p ch) :
    (ch.apply p).WithinLimits := by
  have hv := hp.view.consistent
  obtain ⟨-, hplaces⟩ := hplaces
  intro quota
  cases ch with
  | install c n =>
    obtain ⟨hmem, hn, -⟩ := hfit
    exact le_limit_of_room (View.taken_occupy_le hv hn quota) (h quota)
      (hplaces.room_of_slot hp hthrottling hconcurrent (hv.waiting c hmem) quota)
  | create c n =>
    obtain ⟨hs, -, -, -, hn, -⟩ := hfit
    have hqueued : (p.view.queue c).Consistent := hv.queue hs
    exact le_limit_of_room (View.taken_occupy_le hqueued hn quota) (h quota)
      (hplaces.room_of_slot hp hthrottling hconcurrent hs quota)
  | relocate c n k =>
    obtain ⟨hc, hs, hk, -⟩ := hfit
    exact le_limit_of_room (View.taken_depart_le hv hc hs hk quota) (h quota)
      (hplaces.1.room_of_move hp hthrottling hconcurrent hs (hv.own hc).2 quota)
  | record s a => exact h quota
  | _ => exact hplaces.elim

theorem Runs.withinLimits_of_makesRoom {G : Pass → Change → Prop} (h : Runs G p q)
    (hp : p.Sound) (hlimits : p.WithinLimits) (hG : ∀ p ch, G p ch → MakesRoom ch) :
    q.WithinLimits := by
  refine h.invariant_of_sound hp hlimits fun r ch _ hr hbelow hfit hguard quota => ?_
  have hafter := hr.apply hfit
  have hlighter := lighter_onView hr.view.consistent hfit (hG r ch hguard)
  exact Nat.le_trans (hlighter.taken_le hr.view.consistent hafter.view.consistent quota)
    (hbelow quota)

theorem makesRoom_of_completes (h : P.Completes p ch) : MakesRoom ch := by
  cases ch with
  | relocate | install | create => exact h.elim
  | _ => trivial

theorem makesRoom_of_clears (h : P.Clears p ch) : MakesRoom ch := by
  cases ch with
  | relocate | install | create => exact h.2.elim
  | _ => trivial

theorem Runs.withinLimits_places (h : Runs P.Places p q) (hp : p.Sound)
    (hlimits : p.WithinLimits) (hthrottling : Decider.throttling ∈ P.deciders)
    (hconcurrent : Decider.concurrentRecoveries ∈ P.deciders) : q.WithinLimits :=
  h.invariant_of_sound hp hlimits fun _ _ _ hr hbelow hfit hguard =>
    hbelow.apply_of_places hr hthrottling hconcurrent hfit hguard

/-- A pass without commands keeps to the limits. -/
theorem Course.withinLimits {m l k : Pass} (h : Course P p m l k q) (hp : p.Sound)
    (hlimits : p.WithinLimits) (hcommands : P.trigger.commands = [])
    (hthrottling : Decider.throttling ∈ P.deciders)
    (hconcurrent : Decider.concurrentRecoveries ∈ P.deciders) : q.WithinLimits := by
  have hm := h.completes.withinLimits_of_makesRoom hp hlimits fun _ _ => makesRoom_of_completes
  have hl := h.clears.withinLimits_of_makesRoom (h.completes.sound hp) hm
    fun _ _ => makesRoom_of_clears
  rw [← h.uncommanded hcommands] at hl
  exact h.places.withinLimits_places (h.sound hp).2.1 hl hthrottling hconcurrent

end Pass

end ShardAllocation
