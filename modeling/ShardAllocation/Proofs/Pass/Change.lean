/-
The changes that a pass consists of.

A pass is a sequence of changes, each about one copy: reports complete copies, moves begin
and are called back, copies leave their nodes, slots are filled, nodes are forgotten and
failed attempts recorded.  `Change.Fits` says what has to be there for a change, and
`Change.apply` what becomes of the pass.

* `Sound.apply` — a change that fits keeps a pass sound;
* `copyOn?_onView_of_ne`, `unassignedOf_onView_of_ne` — a change leaves the other shards
  alone;
* `Runs` — the passes that changes of some kind lead to, with `Runs.sound`, and
  `Runs.invariant` and `Runs.invariant_of_sound` for what every one of them satisfies.
-/
import ShardAllocation.Proofs.Routing.Sound
import ShardAllocation.Reroute

namespace ShardAllocation

/-- One change of a pass. -/
inductive Change where
  /-- The copy on the node is complete. -/
  | start (c : Copy) (n : NodeId)
  /-- The move of the copy on the node is called back. -/
  | cancel (c : Copy) (n : NodeId)
  | relocate (c : Copy) (n target : NodeId)
  /-- The copy leaves the node, and its slot waits. -/
  | release (c : Copy) (n : NodeId) (info : UnassignedInfo)
  /-- The primary fails, and a replica takes over if one can. -/
  | surrender (c : Copy) (n : NodeId) (info : UnassignedInfo)
  /-- The primary is forgotten, and a replica takes over. -/
  | handOver (c : Copy) (n : NodeId)
  /-- A waiting slot is filled. -/
  | install (c : Copy) (n : NodeId)
  /-- A new slot is created and filled. -/
  | create (c : Copy) (n : NodeId)
  | forget (n : NodeId)
  | record (s : ShardId) (a : Attempt)

namespace Change

/-- The shard whose copies a change is about. -/
def shard? : Change → Option ShardId
  | start c _ => some c.shard
  | cancel c _ => some c.shard
  | relocate c _ _ => some c.shard
  | release c _ _ => some c.shard
  | surrender c _ _ => some c.shard
  | handOver c _ => some c.shard
  | install c _ => some c.shard
  | create c _ => some c.shard
  | forget _ => none
  | record _ _ => none

/-- What a change makes of the working view. -/
def onView (v : View) : Change → View
  | start c n => (v.settle n c).noted (.started c.shard n)
  | cancel c n => (v.settle n c).noted (.relocationCancelled c.shard n (c.peer.getD ""))
  | relocate c n target =>
    (v.depart n target c).noted (.relocationStarted c.shard n target c.primary)
  | release c n info => v.release n c info
  | surrender c n info => v.surrender n c info
  | handOver c n => v.handOver n c
  | install c n => v.install n c
  | create c n => (v.queue c).install n c
  | forget n => v.forget n
  | record _ _ => v

/-- What a change makes of the history. -/
def onHistory (h : History) : Change → History
  | record s a => h.record s a
  | _ => h

/-- The pass after a change. -/
def apply (ch : Change) (p : Pass) : Pass :=
  { p with view := ch.onView p.view, history := ch.onHistory p.history }

/-- What has to be there for a change. -/
def Fits (m : Metadata) (v : View) : Change → Prop
  | start c n => v.copyOn? c.shard n = some c ∧ c.state = .initializing
  | cancel c n => v.copyOn? c.shard n = some c ∧ c.state = .relocating
  | relocate c n target =>
    v.copyOn? c.shard n = some c ∧ c.state = .started ∧ v.copyOn? c.shard target = none ∧
      v.isLive target = true
  | release c n _ => v.copyOn? c.shard n = some c ∧ c.isRelocationTarget = false
  | surrender c n _ =>
    v.copyOn? c.shard n = some c ∧ c.isRelocationTarget = false ∧ c.primary = true
  | handOver c n =>
    v.copyOn? c.shard n = some c ∧ c.isRelocationTarget = false ∧ c.primary = true ∧
      v.promotable c.shard ≠ []
  | install c n => c ∈ v.unassigned ∧ v.copyOn? c.shard n = none ∧ v.isLive n = true
  | create c n =>
    c.state = .unassigned ∧ c.Shaped ∧ c.primary = false ∧
      v.slotCount c.shard < m.capacity c.shard ∧ v.copyOn? c.shard n = none ∧ v.isLive n = true
  | forget n => v.isLive n = false ∧ ∀ s, v.copyOn? s n = none
  | record s _ => m.knows s = true

end Change

/-! ### Members and nodes -/

namespace View

variable {v : View} {s t : ShardId} {n k : NodeId} {c d : Copy}

@[simp] theorem live_takeOver (v : View) (s : ShardId) : (v.takeOver s).live = v.live := by
  unfold takeOver
  split
  next r _ => exact (sameFrame_promote v (r.node.getD "") r).live
  next => rfl

theorem live_onView (v : View) (ch : Change) : (ch.onView v).live = v.live := by
  cases ch with
  | start c n => exact (sameFrame_settle v n c).live
  | cancel c n => exact (sameFrame_settle v n c).live
  | relocate c n target => exact (sameFrame_depart v n target c).live
  | release c n info => exact (sameFrame_vacate v n c).live
  | surrender c n info => exact (live_takeOver ..).trans (sameFrame_vacate v n c).live
  | handOver c n => exact (live_takeOver ..).trans (sameFrame_vacate v n c).live
  | install c n => rfl
  | create c n => rfl
  | forget n => rfl
  | record s a => rfl

theorem isLive_onView (v : View) (ch : Change) (n : NodeId) :
    (ch.onView v).isLive n = v.isLive n := by
  rw [isLive, live_onView, isLive]

theorem NodesIn.takeOver {P : NodeId → Prop} (h : v.NodesIn P) (hv : v.Consistent)
    (s : ShardId) : (v.takeOver s).NodesIn P := by
  rcases takeOver_cases hv s with ⟨-, heq⟩ | ⟨r, n, -, -, hr, -, -, -, heq⟩
  · rw [heq]
    exact h
  · rw [heq]
    exact h.promote hr

/-- A change brings in no node but members. -/
theorem NodesIn.onView {P : NodeId → Prop} (h : v.NodesIn P) (hv : v.Consistent)
    {m : Metadata} {ch : Change} (hfit : ch.Fits m v) (hlive : ∀ k, v.isLive k = true → P k) :
    (ch.onView v).NodesIn P := by
  cases ch with
  | start c n => exact h.settle hv hfit.1
  | cancel c n => exact h.settle hv hfit.1
  | relocate c n target => exact h.depart hfit.1 (hlive target hfit.2.2.2)
  | release c n info => exact h.vacate hv hfit.1
  | surrender c n info =>
    have hreleased : (v.release n c info).NodesIn P := h.vacate hv hfit.1
    exact hreleased.takeOver (hv.release hfit.1) c.shard
  | handOver c n =>
    have hvacated : ((v.vacate n c).noted (.dropped c.shard n)).NodesIn P := h.vacate hv hfit.1
    exact hvacated.takeOver (hv.drop hfit.1) c.shard
  | install c n => exact h.put (hlive n hfit.2.2) (c.placedOn n)
  | create c n =>
    obtain ⟨-, -, -, -, -, hn⟩ := hfit
    have hqueued : (v.queue c).NodesIn P := h
    exact hqueued.put (hlive n hn) (c.placedOn n)
  | forget n => exact h.forget fun _ _ hk => hk
  | record s a => exact h

theorem Covers.takeOver {P : NodeId → Prop} (h : v.Covers P) (s : ShardId) :
    (v.takeOver s).Covers P := by
  unfold View.takeOver
  split
  next r _ => exact h.promote (r.node.getD "") r
  next => exact h

/-- No node that is a member goes. -/
theorem Covers.onView {P : NodeId → Prop} (h : v.Covers P) {m : Metadata} {ch : Change}
    (hfit : ch.Fits m v) (hlive : ∀ k, P k → v.isLive k = true) : (ch.onView v).Covers P := by
  cases ch with
  | start c n => exact h.settle n c
  | cancel c n => exact h.settle n c
  | relocate c n target => exact h.depart n target c
  | release c n info => exact h.vacate n c
  | surrender c n info =>
    have hreleased : (v.release n c info).Covers P := h.vacate n c
    exact hreleased.takeOver c.shard
  | handOver c n =>
    have hvacated : ((v.vacate n c).noted (.dropped c.shard n)).Covers P := h.vacate n c
    exact hvacated.takeOver c.shard
  | install c n => exact h.put n (c.placedOn n)
  | create c n =>
    have hqueued : (v.queue c).Covers P := h
    exact hqueued.put n (c.placedOn n)
  | forget n =>
    exact h.forget fun hn => Bool.false_ne_true (hfit.1.symm.trans (hlive n hn))
  | record s a => exact h

/-! ### The other shards -/

theorem copyOn?_takeOver_of_ne (h : v.Consistent) (hs : t ≠ s) :
    (v.takeOver s).copyOn? t = v.copyOn? t := by
  rcases takeOver_cases h s with ⟨-, heq⟩ | ⟨r, n, -, rfl, -, -, -, -, heq⟩
  · rw [heq]
  · rw [heq]
    exact copyOn?_promote_of_ne (h.linked _) hs

theorem unassignedOf_queue (v : View) (slot : Copy) (s : ShardId) :
    (v.queue slot).unassignedOf s =
      v.unassignedOf s ++ if slot.shard = s then [slot] else [] := by
  rw [unassignedOf, queue, List.filter_append, ← unassignedOf]
  by_cases hs : slot.shard = s <;> simp [hs]

theorem unassignedOf_release (v : View) (n : NodeId) (c : Copy) (info : UnassignedInfo)
    (s : ShardId) : (v.release n c info).unassignedOf s =
      v.unassignedOf s ++ if c.shard = s then [c.slot info] else [] := by
  have hvacated : (v.vacate n c).unassignedOf s = v.unassignedOf s :=
    congrArg (List.filter _) (sameFrame_vacate v n c).unassigned
  rw [← hvacated]
  exact unassignedOf_queue (v.vacate n c) (c.slot info) s

theorem unassignedOf_occupy_of_ne (ht : t ≠ c.shard) :
    (v.occupy n c).unassignedOf t = v.unassignedOf t := by
  have hnot : c ∉ v.unassignedOf t := fun hc => ht (mem_unassignedOf.mp hc).2.symm
  show (v.unassigned.erase c).filter _ = _
  rw [← List.erase_filter]
  exact List.erase_of_not_mem hnot

theorem unassignedOf_demoteSlots (v : View) (s t : ShardId) :
    (v.demoteSlots s).unassignedOf t = (v.unassignedOf t).map fun d =>
      if d.shard == s && d.primary then d.demote else d := by
  have hshard : ∀ d : Copy, (if d.shard == s && d.primary then d.demote else d).shard =
      d.shard := fun d => by split <;> rfl
  show (v.unassigned.map _).filter _ = _
  rw [List.filter_map, unassignedOf]
  simp only [Function.comp_def, hshard]

theorem unassignedOf_demoteSlots_of_ne (ht : t ≠ s) :
    (v.demoteSlots s).unassignedOf t = v.unassignedOf t := by
  rw [unassignedOf_demoteSlots]
  refine (List.map_congr_left fun d hd => if_neg ?_).trans (List.map_id _)
  -- the slots that are left are none of the other shard
  simp [(mem_unassignedOf.mp hd).2, ht]

theorem unassignedOf_takeOver_of_ne (h : v.Consistent) (ht : t ≠ s) :
    (v.takeOver s).unassignedOf t = v.unassignedOf t := by
  rcases takeOver_cases h s with ⟨-, heq⟩ | ⟨r, n, -, rfl, -, -, -, -, heq⟩
  · rw [heq]
  · have hslots := unassignedOf_demoteSlots_of_ne (v := v.promote n r) ht
    rw [unassignedOf, unassignedOf, (sameFrame_promote v n r).unassigned] at hslots
    rw [heq]
    exact hslots

/-- A change leaves the layouts of the other shards alone. -/
theorem copyOn?_onView_of_ne (h : v.Consistent) {m : Metadata} {ch : Change}
    (hfit : ch.Fits m v) (hs : ch.shard? ≠ some s) : (ch.onView v).copyOn? s = v.copyOn? s := by
  have hne : ∀ {c : Copy}, some c.shard ≠ some s → s ≠ c.shard := fun hc heq => hc (by rw [heq])
  cases ch with
  | start c n => exact copyOn?_settle_of_ne (hne hs)
  | cancel c n => exact copyOn?_settle_of_ne (hne hs)
  | relocate c n target => exact copyOn?_depart_of_ne (hne hs)
  | release c n info => exact copyOn?_vacate_of_ne (hne hs)
  | surrender c n info =>
    have hreleased : (v.release n c info).Consistent := h.release hfit.1
    exact (copyOn?_takeOver_of_ne hreleased (hne hs)).trans (copyOn?_vacate_of_ne (hne hs))
  | handOver c n =>
    have hvacated : ((v.vacate n c).noted (.dropped c.shard n)).Consistent :=
      h.drop hfit.1
    exact (copyOn?_takeOver_of_ne hvacated (hne hs)).trans (copyOn?_vacate_of_ne (hne hs))
  | install c n => exact copyOn?_occupy_of_ne (hne hs)
  | create c n => exact copyOn?_occupy_of_ne (v := v.queue c) (hne hs)
  | forget n => exact copyOn?_forget_of_empty hfit.2 s
  | record s a => rfl

/-- A change leaves the waiting slots of the other shards alone. -/
theorem unassignedOf_onView_of_ne (h : v.Consistent) {m : Metadata} {ch : Change}
    (hfit : ch.Fits m v) (hs : ch.shard? ≠ some s) :
    (ch.onView v).unassignedOf s = v.unassignedOf s := by
  have hne : ∀ {c : Copy}, some c.shard ≠ some s → s ≠ c.shard := fun hc heq => hc (by rw [heq])
  have hreleased : ∀ {c : Copy} {n : NodeId} {info : UnassignedInfo}, s ≠ c.shard →
      (v.release n c info).unassignedOf s = v.unassignedOf s := fun hc => by
    rw [unassignedOf_release, if_neg hc.symm, List.append_nil]
  cases ch with
  | start c n => exact congrArg (List.filter _) (sameFrame_settle v n c).unassigned
  | cancel c n => exact congrArg (List.filter _) (sameFrame_settle v n c).unassigned
  | relocate c n target => rfl
  | release c n info => exact hreleased (hne hs)
  | surrender c n info =>
    have hcons : (v.release n c info).Consistent := h.release hfit.1
    exact (unassignedOf_takeOver_of_ne hcons (hne hs)).trans (hreleased (hne hs))
  | handOver c n =>
    have hcons : ((v.vacate n c).noted (.dropped c.shard n)).Consistent := h.drop hfit.1
    refine (unassignedOf_takeOver_of_ne hcons (hne hs)).trans ?_
    exact congrArg (List.filter _) (sameFrame_vacate v n c).unassigned
  | install c n => exact unassignedOf_occupy_of_ne (n := n) (hne hs)
  | create c n =>
    refine (unassignedOf_occupy_of_ne (v := v.queue c) (n := n) (hne hs)).trans ?_
    rw [unassignedOf_queue, if_neg (hne hs).symm, List.append_nil]
  | forget n => rfl
  | record s a => rfl

theorem mem_unassigned_onView_of_ne (h : v.Consistent) {m : Metadata} {ch : Change}
    (hfit : ch.Fits m v) (hs : ch.shard? ≠ some d.shard) :
    d ∈ (ch.onView v).unassigned ↔ d ∈ v.unassigned := by
  have hslots := congrArg (d ∈ ·) (unassignedOf_onView_of_ne h hfit hs)
  simpa only [mem_unassignedOf, and_true] using iff_of_eq hslots

/-! ### Sound passes -/

theorem Sound.onView {m : Metadata} (h : v.Sound m) {ch : Change} (hfit : ch.Fits m v) :
    (ch.onView v).Sound m := by
  cases ch with
  | start c n => exact (h.settle hfit.1).noted _
  | cancel c n => exact (h.settle hfit.1).noted _
  | relocate c n target =>
    obtain ⟨hc, hs, hempty, -⟩ := hfit
    exact (h.depart hc hs hempty).noted _
  | release c n info => exact h.release hfit.1
  | surrender c n info => exact h.surrender hfit.1 hfit.2.2
  | handOver c n =>
    obtain ⟨hc, ht, hprim, hcan⟩ := hfit
    exact h.handOver hc ht hprim hcan
  | install c n => exact h.install hfit.1 hfit.2.1
  | create c n =>
    obtain ⟨hs, hshaped, hprim, hroom, hn, -⟩ := hfit
    have hqueued := h.queue hs hshaped hprim hroom
    exact hqueued.install (List.mem_append_right _ (List.mem_singleton_self _)) hn
  | forget n => exact h.forget hfit.2
  | record s a => exact h

end View

namespace Pass

/-- The view is sound, every index is declared under its name, and the history names
declared shards only. -/
structure Sound (p : Pass) : Prop where
  view : p.view.Sound p.state.metadata
  keyed : ∀ {name m}, p.state.metadata.get? name = some m → m.name = name
  named : ∀ s, p.history.shards.contains s = true → p.state.metadata.knows s = true

/-- A history names a shard once an attempt is recorded, and no shard besides. -/
theorem contains_record (h : History) (s other : ShardId) (a : Attempt)
    (hother : (h.record s a).shards.contains other = true) :
    other = s ∨ h.shards.contains other = true := by
  unfold History.record at hother
  split at hother
  · rw [SortedMap.contains_insert, Bool.or_eq_true, decide_eq_true_eq] at hother
    exact hother
  · exact .inr hother

variable {p q r : Pass} {ch : Change}

theorem Sound.apply (h : p.Sound) (hfit : ch.Fits p.state.metadata p.view) :
    (ch.apply p).Sound := by
  refine ⟨h.view.onView hfit, h.keyed, fun s hs => ?_⟩
  cases ch with
  | record t a =>
    rcases contains_record p.history t s a hs with rfl | hs
    · exact hfit
    · exact h.named s hs
  | _ => exact h.named s hs

/-! ### Runs of changes -/

/-- The passes that changes which the guard admits lead to. -/
inductive Runs (G : Pass → Change → Prop) (p : Pass) : Pass → Prop where
  | refl : Runs G p p
  | step {q : Pass} {ch : Change} : Runs G p q → ch.Fits q.state.metadata q.view → G q ch →
    Runs G p (ch.apply q)

namespace Runs

variable {G H : Pass → Change → Prop}

theorem single (hfit : ch.Fits p.state.metadata p.view) (hguard : G p ch) :
    Runs G p (ch.apply p) :=
  refl.step hfit hguard

theorem trans (h : Runs G p q) (h' : Runs G q r) : Runs G p r := by
  induction h' with
  | refl => exact h
  | step _ hfit hguard ih => exact ih.step hfit hguard

theorem mono (h : Runs G p q) (hGH : ∀ p ch, G p ch → H p ch) : Runs H p q := by
  induction h with
  | refl => exact refl
  | step _ hfit hguard ih => exact ih.step hfit (hGH _ _ hguard)

/-- What holds before and is kept by every change holds after. -/
theorem invariant (h : Runs G p q) {I : Pass → Prop} (hp : I p)
    (hstep : ∀ p ch, I p → ch.Fits p.state.metadata p.view → G p ch → I (ch.apply p)) : I q := by
  induction h with
  | refl => exact hp
  | step _ hfit hguard ih => exact hstep _ _ ih hfit hguard

theorem sound (h : Runs G p q) (hp : p.Sound) : q.Sound :=
  h.invariant hp fun _ _ hp hfit _ => hp.apply hfit

/-- What a pass was given stays as it is. -/
theorem frame (h : Runs G p q) : q.state = p.state ∧ q.settings = p.settings ∧
    q.time = p.time ∧ q.view.live = p.view.live := by
  refine h.invariant (I := fun r => r.state = p.state ∧ r.settings = p.settings ∧
    r.time = p.time ∧ r.view.live = p.view.live) ⟨rfl, rfl, rfl, rfl⟩ ?_
  rintro r ch ⟨hstate, hsettings, htime, hlive⟩ - -
  exact ⟨hstate, hsettings, htime, (View.live_onView r.view ch).trans hlive⟩

theorem isLive_eq (h : Runs G p q) (n : NodeId) : q.view.isLive n = p.view.isLive n := by
  rw [View.isLive, h.frame.2.2.2, View.isLive]

/-- What holds before and is kept by every change holds after.  On the way the passes are sound,
and have what the run has given them. -/
theorem invariant_of_sound (h : Runs G p q) (hp : p.Sound) {I : Pass → Prop} (hI : I p)
    (hstep : ∀ r ch, Runs G p r → r.Sound → I r → ch.Fits r.state.metadata r.view → G r ch →
      I (ch.apply r)) : I q := by
  induction h with
  | refl => exact hI
  | step hrun hfit hguard ih => exact hstep _ _ hrun (hrun.sound hp) ih hfit hguard

/-- A guard that implies another one on the way of a run may be replaced by it. -/
theorem mono_of_sound (h : Runs G p q) (hp : p.Sound)
    (hGH : ∀ r ch, Runs G p r → r.Sound → ch.Fits r.state.metadata r.view → G r ch → H r ch) :
    Runs H p q :=
  h.invariant_of_sound hp refl fun _ _ hrun hr hH hfit hguard =>
    hH.step hfit (hGH _ _ hrun hr hfit hguard)

/-- A run brings in no node but members. -/
theorem nodesIn (h : Runs G p q) (hp : p.Sound) {P : NodeId → Prop} (hnodes : p.view.NodesIn P)
    (hlive : ∀ k, p.view.isLive k = true → P k) : q.view.NodesIn P := by
  refine h.invariant_of_sound hp (I := fun r => r.view.NodesIn P) hnodes ?_
  intro r ch hrun hr hin hfit _
  exact hin.onView hr.view.consistent hfit fun k hk => hlive k (hrun.isLive_eq k ▸ hk)

/-- A run keeps every member in the view. -/
theorem covers (h : Runs G p q) (hcovers : p.view.Covers fun k => p.view.isLive k = true) :
    q.view.Covers fun k => q.view.isLive k = true := by
  refine h.invariant (I := fun r => r.view.Covers fun k => r.view.isLive k = true) hcovers ?_
  intro r ch hr hfit _ k hk
  rw [Change.apply, View.isLive_onView] at hk
  exact hr.onView hfit (fun _ hlive => hlive) k hk

end Runs

end Pass

end ShardAllocation
