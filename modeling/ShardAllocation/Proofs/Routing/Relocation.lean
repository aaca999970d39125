/-
A relocation happens completely or not at all.

A move in flight is two copies that point at each other, and the holders of the shard.  Calling it
back and completing it are the same change of the view, seen from either end: the copy there
settles and the other half goes.  So a move that is called back leaves the view from which it
began, a completed one differs from that view by the place of one copy, and the role of the copy
is the one that both halves have at the end.

* `Path` — the views that changes lead to, with `Path.tidy` for what all of them satisfy;
* `Underway.moved_settle` — either half of a move that began settles, and the other one goes;
* `cancelRelocation_relocate`, `start_relocate` — the two ends of a move;
* `Moving.cancelRelocation_eq`, `Moving.start_eq` — the ends of a move at any time;
* `Moving.promoteReplica_ok`, `Path.primary` — a copy that is promoted on its way stays primary.
-/
import ShardAllocation.Proofs.Routing.Inversion

namespace ShardAllocation

/-- The complete copy of a shard on a node. -/
def Copy.startedOn (s : ShardId) (n : NodeId) (primary : Bool) : Copy :=
  { shard := s, primary, state := .started, node := some n }

/-- What a pass minds when it chooses its changes: new slots are those of declared shards, and no
member is forgotten. -/
def Operation.Proper (m : Metadata) (v : View) : Operation → Prop
  | addUnassigned c => m.knows c.shard = true ∧ c.Shaped
  | removeNode n => v.isLive n = false
  | _ => True

namespace View

variable {v w x : View} {s t : ShardId} {n k a b : NodeId} {c d : Copy} {m : Metadata}
variable {K : View → Prop}

/-! ### The views on the way -/

/-- The views that changes lead to while `K` holds of what each of them leaves. -/
inductive Path (m : Metadata) (K : View → Prop) (v : View) : View → Prop where
  | refl : Path m K v v
  | step {w x : View} {o : Operation} : Path m K v w → o.Proper m w → o.run w = .ok () x → K x →
    Path m K v x

/-- What every view on the way of a pass satisfies, whatever its changes are. -/
structure Tidy (m : Metadata) (v : View) : Prop where
  consistent : v.Consistent
  shaped : v.Shaped
  covers : v.Covers fun k => v.isLive k = true
  declared : ∀ s, 0 < v.slotCount s → m.knows s = true

theorem Tidy.knows (h : v.Tidy m) (hc : v.copyOn? s n = some c) : m.knows s = true :=
  h.declared s (h.consistent.slotCount_pos hc)

theorem Tidy.step (h : v.Tidy m) {o : Operation} (hproper : o.Proper m v)
    (hrun : o.run v = .ok () w) : w.Tidy m := by
  have e := (Operation.run_eq_ok_iff h.consistent).mp hrun
  have hlive : ∀ k, w.isLive k = v.isLive k := fun k => by rw [isLive, e.live, isLive]
  constructor
  case consistent => exact e.consistent h.consistent
  case shaped =>
    refine e.shaped h.consistent h.shaped ?_
    rintro c rfl
    exact hproper.2
  case covers =>
    simp only [hlive]
    refine e.covers h.covers ?_
    rintro k rfl
    exact Bool.eq_false_iff.mp hproper
  case declared =>
    intro s hpos
    rcases e.slotCount_le h.consistent s with hle | ⟨c, rfl, rfl⟩
    · exact h.declared s (Nat.lt_of_lt_of_le hpos hle)
    · exact hproper.1

namespace Path

theorem tidy (h : Path m K v w) (hv : v.Tidy m) : w.Tidy m := by
  induction h with
  | refl => exact hv
  | step _ hproper hrun _ ih => exact ih.step hproper hrun

theorem last (h : Path m K v w) (hv : K v) : K w := by
  cases h with
  | refl => exact hv
  | step _ _ _ hK => exact hK

theorem trans (h : Path m K v w) (h' : Path m K w x) : Path m K v x := by
  induction h' with
  | refl => exact h
  | step _ hproper hrun hK ih => exact ih.step hproper hrun hK

end Path

/-! ### Copies on nodes -/

theorem Consistent.settled_eq (h : v.Consistent) (hshaped : v.Shaped)
    (hc : v.copyOn? s n = some c) : c.settled = .startedOn s n c.primary := by
  obtain ⟨rfl, hnode⟩ := h.own hc
  have hinfo : c.info = none := by
    have hno := mt (hshaped.held hc).info_isSome.mp ((h.linked _).assigned hc)
    simpa using hno
  simp only [Copy.settled, Copy.startedOn, hnode, hinfo]

/-- A started copy is the one with its name, place and role. -/
theorem Consistent.eq_startedOn (h : v.Consistent) (hshaped : v.Shaped)
    (hc : v.copyOn? s n = some c) (hs : c.state = .started) : c = .startedOn s n c.primary := by
  rw [← h.settled_eq hshaped hc, Copy.settled, ← hs, ← (h.linked s).settled hc hs]

/-- When one half of a move settles, it is started where it is, and the other half is gone. -/
theorem copyOn?_settle (h : v.Consistent) (hshaped : v.Shaped) (hc : v.copyOn? s n = some c)
    (hp : c.peer = some k) (t : ShardId) (j : NodeId) :
    (v.settle n c).copyOn? t j =
      if t = s ∧ j = n then some (.startedOn s n c.primary)
      else if t = s ∧ j = k then none else v.copyOn? t j := by
  have hsettled := h.settled_eq hshaped hc
  obtain ⟨rfl, -⟩ := h.own hc
  by_cases ht : t = c.shard
  · subst ht
    simp only [layout_settle, Layout.settle, hsettled, hp, true_and, Option.some_inj, eq_comm]
  · simp only [copyOn?_settle_of_ne ht, ht, false_and, if_false]

theorem copyOn?_depart (v : View) (c : Copy) (t : ShardId) (j : NodeId) :
    (v.depart n k c).copyOn? t j =
      if t = c.shard ∧ j = n then some (c.departing k)
      else if t = c.shard ∧ j = k then some (c.arriving k) else v.copyOn? t j := by
  by_cases ht : t = c.shard
  · subst ht
    simp only [layout_depart, Layout.depart, true_and]
  · simp only [copyOn?_depart_of_ne ht, ht, false_and, if_false]

theorem contains_nodes_settle (hc : v.nodes.contains n = true) (hp : c.peer = some k)
    (hk : v.nodes.contains k = true) (j : NodeId) :
    (v.settle n c).nodes.contains j = v.nodes.contains j := by
  rw [settle, contains_nodes_put, withoutPeer, hp, contains_nodes_take]
  by_cases hjn : j = n <;> by_cases hjk : j = k <;> simp [hjn, hjk, hc, hk]

theorem contains_nodes_depart (hn : v.nodes.contains n = true) (hk : v.nodes.contains k = true)
    (j : NodeId) : (v.depart n k c).nodes.contains j = v.nodes.contains j := by
  rw [depart, contains_nodes_put, contains_nodes_put]
  by_cases hjn : j = n <;> by_cases hjk : j = k <;> simp [hjn, hjk, hn, hk]

/-! ### A move in flight -/

/-- The copy of the shard on `a` is on its way to `b`. -/
def Moving (v : View) (s : ShardId) (a b : NodeId) : Prop :=
  ∃ c, v.copyOn? s a = some c ∧ c.state = .relocating ∧ c.peer = some b

namespace Moving

/-- The two halves of a move. -/
theorem exists_halves (hm : v.Moving s a b) (h : v.Consistent) :
    ∃ c d, v.copyOn? s a = some c ∧ c.state = .relocating ∧ c.peer = some b ∧
      v.copyOn? s b = some d ∧ d.state = .initializing ∧ d.peer = some a ∧
      d.primary = c.primary ∧ b ≠ a := by
  obtain ⟨c, hc, hrel, hp⟩ := hm
  obtain ⟨k, d, hk, hne, hd, hinit, hback, hprim⟩ := (h.linked s).target hc hrel
  obtain rfl : b = k := Option.some_inj.mp (hp.symm.trans hk)
  exact ⟨c, d, hc, hrel, hp, hd, hinit, hback, hprim, hne⟩

/-- A move that is called back leaves a started copy on its source, and none on its target. -/
theorem cancelRelocation_eq (hm : v.Moving s a b) (h : v.Tidy m) (hc : v.copyOn? s a = some c) :
    ∃ w, View.cancelRelocation s a v = .ok () w ∧
      w.copyOn? s a = some (.startedOn s a c.primary) ∧ w.copyOn? s b = none := by
  obtain ⟨e, d, he, hrel, hp, -, -, -, -, hne⟩ := hm.exists_halves h.consistent
  obtain rfl : c = e := Option.some_inj.mp (hc.symm.trans he)
  have hlayout := copyOn?_settle h.consistent h.shaped hc hp s
  refine ⟨_, View.cancelRelocation_eq h.consistent hc hrel hp, (hlayout a).trans ?_,
    (hlayout b).trans ?_⟩
  · rw [if_pos ⟨rfl, rfl⟩]
  · rw [if_neg (fun heq => hne heq.2), if_pos ⟨rfl, rfl⟩]

/-- A completed move leaves a started copy on its target, and none on its source. -/
theorem start_eq (hm : v.Moving s a b) (h : v.Tidy m) (hc : v.copyOn? s a = some c) :
    ∃ w, View.start s b v = .ok () w ∧
      w.copyOn? s b = some (.startedOn s b c.primary) ∧ w.copyOn? s a = none := by
  obtain ⟨e, d, he, -, -, hd, hinit, hback, hprim, hne⟩ := hm.exists_halves h.consistent
  obtain rfl : c = e := Option.some_inj.mp (hc.symm.trans he)
  have hlayout := copyOn?_settle h.consistent h.shaped hd hback s
  refine ⟨_, View.start_eq h.consistent hd hinit, (hlayout b).trans ?_, (hlayout a).trans ?_⟩
  · rw [if_pos ⟨rfl, rfl⟩, hprim]
  · rw [if_neg (fun heq => hne heq.2.symm), if_pos ⟨rfl, rfl⟩]

/-- A copy that is promoted on its way keeps moving, as the primary. -/
theorem promoteReplica_ok (hm : v.Moving s a b) (h : v.Consistent)
    (hrun : View.promoteReplica s v = .ok (some a) w) :
    w.Moving s a b ∧ ∃ c, w.copyOn? s a = some c ∧ c.primary = true := by
  obtain ⟨c, hc, hrel, hp⟩ := hm
  have hnone := View.promoteReplica_ok hrun
  cases hbest : v.bestReplica? s with
  | none =>
    rw [promoteReplica_eq_none hnone hbest] at hrun
    cases hrun
  | some r =>
    obtain ⟨n, hnode, hr, -⟩ := bestReplica?_spec h hbest
    rw [promoteReplica_eq h hnone hbest hnode] at hrun
    cases hrun
    -- the replica that takes over is the copy on `a`
    obtain rfl : c = r := Option.some_inj.mp (hc.symm.trans hr)
    obtain ⟨rfl, -⟩ := h.own hc
    have hnew : (v.promote a c).copyOn? c.shard a = some c.asPrimary := by
      rw [layout_promote (h.linked _) hc, Layout.promote, if_pos (.inl rfl), hc]
      rfl
    exact ⟨⟨c.asPrimary, hnew, hrel, hp⟩, c.asPrimary, hnew, rfl⟩

end Moving

/-- While a copy is on its way it stays the primary. -/
theorem Path.primary (h : Path m (fun w => w.Moving s a b) v w) (hv : v.Tidy m)
    (hm : v.Moving s a b) (hprim : ∃ c, v.copyOn? s a = some c ∧ c.primary = true) :
    ∃ c, w.copyOn? s a = some c ∧ c.primary = true := by
  induction h with
  | refl => exact hprim
  | @step w x o hpath hproper hrun hK ih =>
    obtain ⟨c, hc, hcprim⟩ := ih
    obtain ⟨e, he, hrel, -⟩ := hpath.last hm
    obtain rfl : c = e := Option.some_inj.mp (hc.symm.trans he)
    obtain ⟨d, hd, hstill, -⟩ := hK
    have hw := (hpath.tidy hv).consistent
    refine ⟨d, hd, ?_⟩
    rcases ((Operation.run_eq_ok_iff hw).mp hrun).relocating hw hc hrel hd hstill with rfl | rfl
    · exact hcprim
    · rfl

/-! ### The two ends of a move -/

/-- Views with the same nodes and copies, the same members and the same slots differ in what was
noted at most. -/
theorem eq_of_layout (hw : w.Indexed) (hv : v.Indexed)
    (hnodes : ∀ n, w.nodes.contains n = v.nodes.contains n) (hcopies : w.copyOn? = v.copyOn?)
    (hlive : w.live = v.live) (hdeparted : w.departed = v.departed)
    (hunassigned : w.unassigned = v.unassigned) : w = { v with transitions := w.transitions } := by
  have hmap := nodes_eq hnodes hcopies
  have hholders := hw.holders_eq hv hcopies
  obtain ⟨nodes, holders, live, departed, unassigned, transitions⟩ := w
  simp only at hmap hholders hlive hdeparted hunassigned
  subst hmap hholders hlive hdeparted hunassigned
  rfl

/-- Nothing is different but that the copy of the shard is started on `b` and not on `a`. -/
structure Moved (v : View) (s : ShardId) (a b : NodeId) (primary : Bool) (w : View) : Prop where
  indexed : w.Indexed
  copies : ∀ t n, w.copyOn? t n =
    if t = s ∧ n = b then some (.startedOn s b primary)
    else if t = s ∧ n = a then none else v.copyOn? t n
  nodes : ∀ n, w.nodes.contains n = v.nodes.contains n
  live : w.live = v.live
  departed : w.departed = v.departed
  unassigned : w.unassigned = v.unassigned

theorem Moved.noted {primary : Bool} (h : Moved v s a b primary w) (t : Transition) :
    Moved v s a b primary (w.noted t) :=
  ⟨⟨h.indexed.1, h.indexed.2⟩, h.copies, h.nodes, h.live, h.departed, h.unassigned⟩

/-- A view with the copy back where it was is the view from before, apart from what was noted. -/
theorem Moved.back {primary : Bool} (h : Moved v s b a primary w) (hv : v.Indexed)
    (ha : v.copyOn? s a = some (.startedOn s a primary)) (hb : v.copyOn? s b = none) :
    w = { v with transitions := w.transitions } := by
  refine eq_of_layout h.indexed hv h.nodes ?_ h.live h.departed h.unassigned
  funext t n
  rw [h.copies]
  split_ifs with hta htb
  · rw [hta.1, hta.2, ha]
  · rw [htb.1, htb.2, hb]
  · rfl

/-- The copy `c` of the shard has left `a` for `b`, and nothing else is different. -/
structure Underway (m : Metadata) (v : View) (s : ShardId) (a b : NodeId) (c : Copy)
    (w : View) : Prop where
  tidy : w.Tidy m
  held : v.copyOn? s a = some c
  shard : c.shard = s
  started : c.state = .started
  free : v.copyOn? s b = none
  source : w.copyOn? s a = some (c.departing b)
  target : w.copyOn? s b = some (c.arriving b)
  elsewhere : ∀ t n, ¬(t = s ∧ n = a) → ¬(t = s ∧ n = b) → w.copyOn? t n = v.copyOn? t n
  nodes : ∀ n, w.nodes.contains n = v.nodes.contains n
  live : w.live = v.live
  departed : w.departed = v.departed
  unassigned : w.unassigned = v.unassigned

theorem underway_of_relocate (h : v.Tidy m) (hb : v.isLive b = true)
    (hrun : View.relocate s a b v = .ok () w) : ∃ c, Underway m v s a b c w := by
  obtain ⟨c, hc, hs, hnone⟩ := relocate_ok h.consistent hrun
  have htidy := h.step (o := .relocate s a b) trivial hrun
  rw [relocate_eq h.consistent hc hs hnone] at hrun
  cases hrun
  obtain ⟨rfl, -⟩ := h.consistent.own hc
  have hne : b ≠ a := fun heq => by rw [heq, hc] at hnone; cases hnone
  refine ⟨c, htidy, hc, rfl, hs, hnone, ?_, ?_, fun t n ha hb => ?_, ?_, rfl, rfl, rfl⟩
  · exact (copyOn?_depart v c c.shard a).trans (if_pos ⟨rfl, rfl⟩)
  · refine (copyOn?_depart v c c.shard b).trans ?_
    rw [if_neg (fun heq => hne heq.2), if_pos ⟨rfl, rfl⟩]
  · refine (copyOn?_depart v c t n).trans ?_
    rw [if_neg ha, if_neg hb]
  · exact contains_nodes_depart (contains_nodes_of_copyOn? hc) (h.covers b hb)

namespace Underway

theorem moving (h : Underway m v s a b c w) : w.Moving s a b :=
  ⟨c.departing b, h.source, rfl, rfl⟩

/-- Whichever half settles, the other one goes. -/
theorem moved_settle (h : Underway m v s a b c w) (hends : n = a ∧ k = b ∨ n = b ∧ k = a)
    (hd : w.copyOn? s n = some d) (hpeer : d.peer = some k) (hother : w.copyOn? s k ≠ none)
    (hprim : d.primary = c.primary) : Moved v s k n c.primary (w.settle n d) := by
  have hw := h.tidy.consistent
  have hown : w.copyOn? d.shard n = some d := by rw [(hw.own hd).1, hd]
  have hframe := sameFrame_settle w n d
  constructor
  case indexed => exact (hw.settle hown).indexed
  case copies =>
    intro t j
    rw [copyOn?_settle hw h.tidy.shaped hd hpeer, hprim]
    split_ifs with hn hk
    · rfl
    · rfl
    · -- off its two ends neither the departure nor what ends it touches anything
      rcases hends with ⟨rfl, rfl⟩ | ⟨rfl, rfl⟩
      · exact h.elsewhere t j hn hk
      · exact h.elsewhere t j hk hn
  case nodes =>
    obtain ⟨e, he⟩ := Option.ne_none_iff_exists'.mp hother
    intro j
    rw [contains_nodes_settle (contains_nodes_of_copyOn? hd) hpeer
      (contains_nodes_of_copyOn? he), h.nodes]
  case live => exact hframe.live.trans h.live
  case departed => exact (departed_settle w n d).trans h.departed
  case unassigned => exact hframe.unassigned.trans h.unassigned

end Underway

/-- A move that is called back leaves the view from which it began. -/
theorem cancelRelocation_relocate (h : v.Tidy m) (hb : v.isLive b = true)
    (hrun : View.relocate s a b v = .ok () w) :
    View.cancelRelocation s a w =
      .ok () { v with transitions := w.transitions ++ [.relocationCancelled s a b] } := by
  obtain ⟨c, hw⟩ := underway_of_relocate h hb hrun
  have hmoved := hw.moved_settle (.inl ⟨rfl, rfl⟩) hw.source rfl (by simp [hw.target]) rfl
  have hcopy := hw.held.trans
    (congrArg some (h.consistent.eq_startedOn h.shaped hw.held hw.started))
  have hback := hmoved.back h.consistent.indexed hcopy hw.free
  rw [View.cancelRelocation_eq hw.tidy.consistent hw.source rfl rfl, hback,
    (sameFrame_settle w a _).transitions]
  rfl

/-- A completed move has brought the copy to its target, as what it was. -/
theorem start_relocate (h : v.Tidy m) (hb : v.isLive b = true) (hc : v.copyOn? s a = some c)
    (hrun : View.relocate s a b v = .ok () w) :
    ∃ x, View.start s b w = .ok () x ∧ Moved v s a b c.primary x ∧
      x.transitions = w.transitions ++ [.started s b] := by
  obtain ⟨e, hw⟩ := underway_of_relocate h hb hrun
  obtain rfl : c = e := Option.some_inj.mp (hc.symm.trans hw.held)
  have hpeer : (c.arriving b).peer = some a := (h.consistent.own hc).2
  have hmoved := hw.moved_settle (.inr ⟨rfl, rfl⟩) hw.target hpeer (by simp [hw.source]) rfl
  refine ⟨_, View.start_eq hw.tidy.consistent hw.target rfl, hmoved.noted _, ?_⟩
  show (w.settle b _).transitions ++ _ = _
  rw [(sameFrame_settle w b _).transitions]

end View

end ShardAllocation
