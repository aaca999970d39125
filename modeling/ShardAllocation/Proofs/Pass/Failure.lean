/-
What a failed copy leaves behind.

A report about a copy that is not there changes nothing, and the target of a move is called back.
Any other copy leaves its node, the target of its move goes along, and its slot waits.  If it was
the primary, then the replicas that are being filled go first, each for a slot that waits; after
that the foremost replica takes over, and without one the slot of the primary waits as such.

* `View.Failed` — what a report owes, with a structure for each case;
* `View.Bereft`, `View.LeavesSlots` — the copies and the slots of a shard that lost its primary;
* `View.Stripped` — the replicas that were being filled are gone, with `Stripped.lostPrimary` for
  the primary that goes after them;
* `applyFailed_failed` — every report does what it owes.
-/
import ShardAllocation.Proofs.Pass.Departure
import ShardAllocation.Proofs.Routing.Succession

namespace ShardAllocation

namespace View

open Pass (NoRecovering)

/-! ### What a report owes -/

/-- No other shard is touched, and the shard keeps the number of its slots. -/
structure Confined (s : ShardId) (v w : View) : Prop where
  live : w.live = v.live
  others : ∀ t, t ≠ s → w.copyOn? t = v.copyOn? t ∧ w.unassignedOf t = v.unassignedOf t
  slots : w.slotCount s = v.slotCount s

/-- The move to the node is undone, and its source is started where it is. -/
structure Recalled (s : ShardId) (n : NodeId) (c : Copy) (v w : View) : Prop where
  target : w.copyOn? s n = none
  source : ∃ k d, c.peer = some k ∧ v.copyOn? s k = some d ∧ w.copyOn? s k = some d.settled ∧
    ∀ j, j ≠ n → j ≠ k → w.copyOn? s j = v.copyOn? s j
  waiting : w.unassignedOf s = v.unassignedOf s

/-- The replica on the node is gone and leaves its slot. -/
structure LostReplica (s : ShardId) (n : NodeId) (info : UnassignedInfo) (c : Copy)
    (v w : View) : Prop where
  /-- The target of its move is gone, too. -/
  gone : ∀ k, k = n ∨ c.peer = some k → w.copyOn? s k = none
  kept : ∀ k, k ≠ n → c.peer ≠ some k → w.copyOn? s k = v.copyOn? s k
  waiting : w.unassignedOf s = v.unassignedOf s ++ [c.slot info]

/-- The number of replicas of a shard that are being filled. -/
def recoveringCount (v : View) (s : ShardId) : Nat := (v.copies s).countP isRecoveringReplica

/-- The slot of a replica that was being filled. -/
def strippedSlot (s : ShardId) (info : UnassignedInfo) : Copy :=
  Copy.newUnassigned s false { info with lostActiveCopy := false }

/-- The slots of a shard that wait after its primary failed: those of before, all of them slots of
replicas, then one for each replica that was being filled, which carries `stripped`, and `slot` at
the end. -/
structure LeavesSlots (s : ShardId) (stripped : UnassignedInfo) (slot : Copy) (v w : View) :
    Prop where
  before : ∀ d ∈ v.unassignedOf s, d.primary = false
  waiting : w.unassignedOf s = v.unassignedOf s ++
    List.replicate (v.recoveringCount s) (strippedSlot s stripped) ++ [slot]

/-- The copies of a shard, each on its node, after the primary `c` on the node `n` failed: `w` from
`v`.  The copies on the nodes `up` are raised to primaries, and no other copy changes. -/
structure Bereft (s : ShardId) (n : NodeId) (c : Copy) (up : List NodeId) (v w : View) : Prop where
  /-- No node gets a copy. -/
  empty : ∀ k, v.copyOn? s k = none → w.copyOn? s k = none
  /-- The target of the primary's move is gone, too. -/
  gone : ∀ k, k = n ∨ c.peer = some k → w.copyOn? s k = none
  /-- A replica that was being filled leaves its node. -/
  stripped : ∀ k d, v.copyOn? s k = some d → isRecoveringReplica d = true → w.copyOn? s k = none
  kept : ∀ k d, v.copyOn? s k = some d → k ≠ n → c.peer ≠ some k →
    isRecoveringReplica d = false → w.copyOn? s k = some (if k ∈ up then d.asPrimary else d)

/-- The replica on the node becomes the primary, where it is and in its state, together with the
target of its move and no other copy. -/
structure Promoted (s : ShardId) (r : Copy) (k : NodeId) (v w : View) : Prop where
  foremost : v.Foremost s r k
  raised : w.copyOn? s k = some r.asPrimary
  target : ∀ j t, r.peer = some j → v.copyOn? s j = some t → w.copyOn? s j = some t.asPrimary
  only : ∀ j d, w.copyOn? s j = some d → d.primary = true → j = k ∨ r.peer = some j

/-- The primary on the node is gone. -/
structure LostPrimary (s : ShardId) (n : NodeId) (info stripped : UnassignedInfo) (c : Copy)
    (v w : View) : Prop where
  /-- No replica is being filled any more. -/
  unfilled : NoRecovering w s
  /-- The foremost replica takes over, and the slot that is left is that of a replica. -/
  succeeded : v.promotable s ≠ [] →
    (∃ r k, Promoted s r k v w ∧ Bereft s n c (k :: r.peer.toList) v w) ∧
      LeavesSlots s stripped (c.slot info).demote v w
  /-- Without such a replica no copy is the primary.  The slot that is left is the one of the
  primary, and says whether the copy was active. -/
  orphaned : v.promotable s = [] →
    Bereft s n c [] v w ∧ (∀ j d, w.copyOn? s j = some d → d.primary = false) ∧
      LeavesSlots s stripped (c.slot info) v w

/-- What the report that a copy of the shard `s` failed on the node `n` owes: `w` from `v`.  The
slot that the copy leaves carries `info`, and the slots of replicas that were being filled from it
carry `stripped`. -/
def Failed (s : ShardId) (n : NodeId) (info stripped : UnassignedInfo) (v w : View) : Prop :=
  Confined s v w ∧
    match v.copyOn? s n with
    | none => w = v
    | some c =>
      if c.isRelocationTarget then Recalled s n c v w
      else if c.primary then LostPrimary s n info stripped c v w
      else LostReplica s n info c v w

variable {v u w : View} {s : ShardId} {n k : NodeId} {c d : Copy} {m : Metadata}
variable {info stripped : UnassignedInfo}

theorem Confined.refl (s : ShardId) (v : View) : Confined s v v :=
  ⟨rfl, fun _ _ => ⟨rfl, rfl⟩, rfl⟩

theorem Confined.trans (hu : Confined s v u) (hw : Confined s u w) : Confined s v w where
  live := hw.live.trans hu.live
  others t ht := ⟨(hw.others t ht).1.trans (hu.others t ht).1,
    (hw.others t ht).2.trans (hu.others t ht).2⟩
  slots := hw.slots.trans hu.slots

/-- The new slot becomes that of a replica, and the others are slots of replicas already. -/
theorem LeavesSlots.demote {slot : Copy} (h : LeavesSlots s stripped slot v u)
    (hshard : slot.shard = s) (hprim : slot.primary = true)
    (hw : w.unassignedOf s = (u.unassignedOf s).map fun d =>
      if d.shard == s && d.primary then d.demote else d) :
    LeavesSlots s stripped slot.demote v w := by
  refine ⟨h.before, ?_⟩
  have hbefore : (v.unassignedOf s).map (fun d =>
      if d.shard == s && d.primary then d.demote else d) = v.unassignedOf s :=
    (List.map_congr_left fun d hd => if_neg (by simp [h.before d hd])).trans (List.map_id _)
  have hstripped : (strippedSlot s stripped).primary = false := rfl
  rw [hw, h.waiting, List.map_append, List.map_append, hbefore, List.map_replicate]
  simp [hstripped, hshard, hprim]

/-! ### Copies that are called back or released -/

theorem confined_settle (hv : v.Consistent) (hd : v.copyOn? d.shard k = some d) (t : Transition) :
    Confined d.shard v ((v.settle k d).noted t) where
  live := (sameFrame_settle v k d).live
  others _ ht := ⟨copyOn?_settle_of_ne ht,
    congrArg (List.filter _) (sameFrame_settle v k d).unassigned⟩
  slots := by
    rw [slotCount_eq, slotCount_eq]
    exact roleCount_settle hv hd _ _

/-- The source of a move settles when its target fails. -/
theorem recalled_settle (hv : v.Consistent) (hd : v.copyOn? d.shard k = some d)
    (hback : d.peer = some n) (hc : v.copyOn? d.shard n = some c) (t : Transition) :
    Recalled d.shard n c v ((v.settle k d).noted t) := by
  obtain ⟨-, -, -, -, hne⟩ := (hv.linked _).exists_peer hd hback
  have hlayout : ((v.settle k d).noted t).copyOn? d.shard = _ := layout_settle v k d
  constructor
  case target => rw [hlayout, Layout.settle, if_neg hne, if_pos hback]
  case source =>
    refine ⟨k, d, (hv.linked _).peer_eq hc hd hback, hd, ?_, fun j hj hjk => ?_⟩
    · rw [hlayout, Layout.settle, if_pos rfl]
    · rw [hlayout, Layout.settle, if_neg hjk, if_neg]
      exact fun hp => hj (Option.some_inj.mp (hp.symm.trans hback))
  case waiting => exact congrArg (List.filter _) (sameFrame_settle v k d).unassigned

theorem confined_release (hv : v.Consistent) (hc : v.copyOn? c.shard n = some c) :
    Confined c.shard v (v.release n c info) where
  live := (sameFrame_vacate v n c).live
  others t ht := ⟨copyOn?_vacate_of_ne ht, by
    rw [unassignedOf_release, if_neg ht.symm, List.append_nil]⟩
  slots := by
    rw [slotCount_eq, slotCount_eq]
    exact roleCount_release hv hc _ _

theorem confined_takeOver (hv : v.Sound m) (hwait : 0 < v.waitingCount s id) :
    Confined s v (v.takeOver s) where
  live := live_takeOver v s
  others _ ht := ⟨copyOn?_takeOver_of_ne hv.consistent ht,
    unassignedOf_takeOver_of_ne hv.consistent ht⟩
  slots := by
    rw [slotCount_eq, slotCount_eq]
    exact hv.roleCount_takeOver_of_waiting hwait _ _

/-- A replica that fails is released. -/
theorem lostReplica_release (v : View) (n : NodeId) (c : Copy) (info : UnassignedInfo) :
    LostReplica c.shard n info c v (v.release n c info) where
  gone _ hk := copyOn?_vacate_eq_none hk
  kept k hk hp := by
    have hlayout : (v.release n c info).copyOn? c.shard = _ := layout_vacate v n c
    rw [hlayout, Layout.vacate, if_neg hk, if_neg hp]
  waiting := by rw [unassignedOf_release, if_pos rfl]

/-! ### The primary -/

theorem recoveringCount_eq_zero (h : v.Indexed) (hnone : NoRecovering v s) :
    v.recoveringCount s = 0 :=
  List.countP_eq_zero.mpr fun d hd => by
    obtain ⟨k, hk⟩ := (mem_copies_iff h).mp hd
    rw [hnone k d hk]
    exact Bool.false_ne_true

/-- A replica that is being filled has no move, so there is one less of its kind when it goes. -/
theorem recoveringCount_release (hv : v.Consistent) (hc : v.copyOn? c.shard n = some c)
    (hrec : isRecoveringReplica c = true) :
    (v.release n c info).recoveringCount c.shard + 1 = v.recoveringCount c.shard := by
  have hlost := lostReplica_release v n c info
  have hreleased : (v.release n c info).Consistent := hv.release hc
  have hcount := countP_copies_add hv.indexed hreleased.indexed isRecoveringReplica
    fun k hk => hlost.kept k hk (by simp [peer_of_recovering hrec])
  rw [hlost.gone n (.inl rfl), hc, Option.toList_none, Option.toList_some, List.countP_nil,
    List.countP_singleton, if_pos hrec] at hcount
  exact hcount

theorem slot_of_recovering (hrec : isRecoveringReplica c = true) :
    c.slot info = strippedSlot c.shard info := by
  rw [Copy.slot, strippedSlot, (isRecoveringReplica_iff.mp hrec).1, isActive_of_recovering hrec]

/-- The replicas of the shard that were being filled are gone, and their slots wait. -/
structure Stripped (s : ShardId) (info : UnassignedInfo) (v u : View) : Prop where
  confined : Confined s v u
  copies : ∀ k d, u.copyOn? s k = some d ↔
    v.copyOn? s k = some d ∧ isRecoveringReplica d = false
  waiting : u.unassignedOf s = v.unassignedOf s ++
    List.replicate (v.recoveringCount s) (strippedSlot s info)

namespace Stripped

/-- What is left of the shard when the primary goes as well. -/
theorem copyOn?_release (h : Stripped c.shard stripped v u) :
    (u.release n c info).copyOn? c.shard k = some d ↔
      k ≠ n ∧ c.peer ≠ some k ∧ v.copyOn? c.shard k = some d ∧ isRecoveringReplica d = false := by
  have hlayout : (u.release n c info).copyOn? c.shard = _ := layout_vacate u n c
  rw [hlayout, Layout.vacate_eq_some, h.copies]

/-- The same replicas can take over as before. -/
theorem mem_promotable_release (h : Stripped c.shard stripped v u) (hv : v.Consistent)
    (hu : (u.release n c info).Consistent) (hc : v.copyOn? c.shard n = some c)
    (ht : c.isRelocationTarget = false) (hprim : c.primary = true) (d : Copy) :
    d ∈ (u.release n c info).promotable c.shard ↔ d ∈ v.promotable c.shard := by
  have hframe : (u.release n c info).live = v.live :=
    (sameFrame_vacate u n c).live.trans h.confined.live
  have hlive : (u.release n c info).isLive = v.isLive := by
    funext k
    rw [isLive, isLive, hframe]
  rw [mem_promotable hu.indexed, mem_promotable hv.indexed, hlive]
  refine and_congr_left fun hrole => exists_congr fun k => ?_
  obtain ⟨hreplica, hactive, -⟩ := hrole
  rw [h.copyOn?_release]
  refine ⟨fun hd => hd.2.2.1, fun hd => ?_⟩
  -- a replica with data is neither the primary nor the target of its move, nor is it being filled
  have hk : k ≠ n := by
    rintro rfl
    obtain rfl : c = d := Option.some_inj.mp (hc.symm.trans hd)
    rw [hprim] at hreplica
    cases hreplica
  exact ⟨hk, (hv.linked _).peer_ne hc ht hd (Copy.isRelocationTarget_of_active hactive), hd,
    not_recovering_of_active hactive⟩

theorem leavesSlots_release (h : Stripped c.shard stripped v u) (hv : v.Sound m)
    (hc : v.copyOn? c.shard n = some c) (ht : c.isRelocationTarget = false)
    (hprim : c.primary = true) :
    LeavesSlots c.shard stripped (c.slot info) v (u.release n c info) := by
  refine ⟨fun d hd => ?_, by rw [unassignedOf_release, if_pos rfl, h.waiting]⟩
  -- the primary is assigned, so its slot does not wait
  obtain ⟨hmem, hshard⟩ := mem_unassignedOf.mp hd
  by_contra hdprim
  have hpos : 0 < v.waitingCount d.shard id :=
    waitingCount_pos hmem (Bool.not_eq_false _ ▸ hdprim)
  rw [hshard, hv.waitingCount_eq_zero hc ht hprim] at hpos
  exact absurd hpos (Nat.lt_irrefl 0)

/-- What is left of the copies of the shard, those on the nodes `up` raised. -/
theorem bereft {up : List NodeId} (h : Stripped c.shard stripped v u) (info : UnassignedInfo)
    (hw : ∀ k, w.copyOn? c.shard k = ((u.release n c info).copyOn? c.shard k).map fun d =>
      if k ∈ up then d.asPrimary else d) : Bereft c.shard n c up v w := by
  have hgone : ∀ {k}, (∀ d, ¬ (k ≠ n ∧ c.peer ≠ some k ∧ v.copyOn? c.shard k = some d ∧
      isRecoveringReplica d = false)) → w.copyOn? c.shard k = none := fun {k} hnone => by
    have hleft : (u.release n c info).copyOn? c.shard k = none :=
      Option.eq_none_iff_forall_ne_some.mpr fun d hd => hnone d (h.copyOn?_release.mp hd)
    rw [hw, hleft, Option.map_none]
  constructor
  case empty =>
    intro k hk
    refine hgone fun d hd => ?_
    rw [hk] at hd
    cases hd.2.2.1
  case gone => exact fun k hk => hgone fun d hd => hk.elim hd.1 hd.2.1
  case stripped =>
    intro k d hd hrec
    refine hgone fun e he => ?_
    obtain rfl : d = e := Option.some_inj.mp (hd.symm.trans he.2.2.1)
    rw [hrec] at he
    cases he.2.2.2
  case kept =>
    intro k d hd hk hp hrec
    rw [hw, h.copyOn?_release.mpr ⟨hk, hp, hd, hrec⟩, Option.map_some]

/-- No replica takes over: the release is all that happens. -/
theorem lostPrimary_release (h : Stripped c.shard stripped v u) (hv : v.Sound m)
    (hc : v.copyOn? c.shard n = some c) (ht : c.isRelocationTarget = false)
    (hprim : c.primary = true) (hnone : v.promotable c.shard = []) :
    LostPrimary c.shard n info stripped c v (u.release n c info) where
  unfilled _ _ hd := (h.copyOn?_release.mp hd).2.2.2
  succeeded hcan := absurd hnone hcan
  orphaned _ := by
    refine ⟨h.bereft info fun k => by simp, fun j d hd => ?_,
      h.leavesSlots_release hv hc ht hprim⟩
    obtain ⟨hj, hp, hd, -⟩ := h.copyOn?_release.mp hd
    by_contra hdprim
    exact (hv.primary_cases hc ht hprim hd (Bool.not_eq_false _ ▸ hdprim)).elim hj hp

/-- The foremost replica takes over from the primary that is released. -/
theorem lostPrimary_takeOver (h : Stripped c.shard stripped v u) (hv : v.Sound m)
    (hu : (u.release n c info).Sound m) (hc : v.copyOn? c.shard n = some c)
    (ht : c.isRelocationTarget = false) (hprim : c.primary = true) {r : Copy}
    (hbest : (u.release n c info).bestReplica? c.shard = some r) :
    LostPrimary c.shard n info stripped c v (u.surrender n c info) := by
  have hsame := h.mem_promotable_release hv.consistent hu.consistent hc ht hprim
  have hfinal : (u.surrender n c info).Sound m :=
    hu.takeOver_of_waiting (waitingCount_release_pos hprim)
  rcases takeOver_cases hu.consistent c.shard with ⟨hnone, -⟩ |
    ⟨r', k, hbest', hshard, hr, -, hactive, -, heq⟩
  · rw [bestReplica?_eq_none_iff.mpr hnone] at hbest
    cases hbest
  obtain rfl : r = r' := Option.some_inj.mp (hbest.symm.trans hbest')
  have hlayout : (u.surrender n c info).copyOn? c.shard =
      Layout.promote ((u.release n c info).copyOn? c.shard) k r := by
    rw [surrender, heq, ← hshard]
    exact layout_promote (hu.consistent.linked _) hr
  rw [hshard] at hr
  have hforemost : (u.release n c info).Foremost c.shard r k :=
    bestReplica?_foremost hu.consistent hbest (hu.consistent.own hr).2
  have hraised : (u.surrender n c info).copyOn? c.shard k = some r.asPrimary := by
    rw [hlayout, Layout.promote, if_pos (.inl rfl), hr]
    rfl
  constructor
  case unfilled =>
    intro j d hd
    rw [hlayout] at hd
    obtain ⟨e, he, rfl⟩ := Layout.promote_eq_some.mp hd
    have hrec := (h.copyOn?_release.mp he).2.2.2
    split
    · rfl
    · exact hrec
  case succeeded =>
    intro _
    refine ⟨⟨r, k, ⟨hforemost.congr fun d => (hsame d).symm, hraised, fun j t hp htj => ?_,
      fun j d hd hdprim => ?_⟩, h.bereft info fun j => ?_⟩, ?_⟩
    · -- the target of the move is still there
      obtain ⟨t', ht', -⟩ := (hu.consistent.linked _).exists_peer hr hp
      obtain rfl : t = t' :=
        Option.some_inj.mp (htj.symm.trans (h.copyOn?_release.mp ht').2.2.1)
      rw [hlayout, Layout.promote, if_pos (.inr hp), ht']
      rfl
    · have htarget : r.asPrimary.isRelocationTarget = false :=
        Copy.isRelocationTarget_of_active hactive
      have honly : j = k ∨ r.asPrimary.peer = some j :=
        hfinal.primary_cases hraised htarget rfl hd hdprim
      exact honly
    · rw [hlayout, Layout.promote_eq_map]
    · refine (h.leavesSlots_release hv hc ht hprim).demote rfl hprim ?_
      have hslots := unassignedOf_demoteSlots ((u.release n c info).promote k r) c.shard c.shard
      rw [surrender, heq, hshard]
      refine hslots.trans ?_
      rw [unassignedOf, unassignedOf, (sameFrame_promote _ k r).unassigned]
  case orphaned =>
    intro hnone
    have hmem := (hsame r).mp (bestReplica?_mem hbest)
    rw [hnone] at hmem
    cases hmem

/-- The primary that fails goes after the replicas that were being filled. -/
theorem lostPrimary (h : Stripped c.shard stripped v u) (hv : v.Sound m) (hu : u.Sound m)
    (hc : v.copyOn? c.shard n = some c) (ht : c.isRelocationTarget = false)
    (hprim : c.primary = true) :
    Confined c.shard v (u.surrender n c info) ∧
      LostPrimary c.shard n info stripped c v (u.surrender n c info) := by
  have hstill : u.copyOn? c.shard n = some c :=
    (h.copies n c).mpr ⟨hc, not_recovering_of_primary hprim⟩
  have hreleased : (u.release n c info).Sound m := hu.release hstill
  have hreleases : Confined c.shard u (u.release n c info) :=
    confined_release hu.consistent hstill
  have hconfined := h.confined.trans hreleases
  refine ⟨hconfined.trans (confined_takeOver hreleased (waitingCount_release_pos hprim)), ?_⟩
  cases hbest : (u.release n c info).bestReplica? c.shard with
  | none =>
    have hsame := h.mem_promotable_release hv.consistent hreleased.consistent hc ht hprim
    have hnone := bestReplica?_eq_none_iff.mp hbest
    have hstays : u.surrender n c info = u.release n c info := by
      rw [surrender, takeOver, hbest]
    rw [hstays]
    refine h.lostPrimary_release hv hc ht hprim (List.eq_nil_iff_forall_not_mem.mpr fun d hd => ?_)
    have hmem := (hsame d).mpr hd
    rw [hnone] at hmem
    cases hmem
  | some r => exact h.lostPrimary_takeOver hv hreleased hc ht hprim hbest

end Stripped

end View

namespace Pass

variable {F : Prop} {p q : Pass} {s : ShardId} {c : Copy} {n : NodeId}

/-! ### The reports -/

/-- The changes that take down the replicas that are being filled. -/
def Strips (info : UnassignedInfo) (_ : Pass) : Change → Prop
  | .release c _ noted => View.isRecoveringReplica c = true ∧ noted = info
  | _ => False

/-- With each of them one more slot waits, and one replica less is being filled. -/
theorem strips_apply {ch : Change} {info : UnassignedInfo} (hp : p.Sound)
    (hfit : ch.Fits p.state.metadata p.view) (hguard : About s (Strips info) p ch) :
    View.Confined s p.view (ch.apply p).view ∧ (ch.apply p).history = p.history ∧
      (ch.apply p).view.recoveringCount s + 1 = p.view.recoveringCount s ∧
      (ch.apply p).view.unassignedOf s = p.view.unassignedOf s ++ [View.strippedSlot s info] := by
  obtain ⟨hstrips, hshard⟩ := hguard
  cases ch with
  | release c n info =>
    obtain ⟨hrec, rfl⟩ := hstrips
    obtain rfl : c.shard = s := Option.some_inj.mp hshard
    refine ⟨View.confined_release hp.view.consistent hfit.1, rfl,
      View.recoveringCount_release hp.view.consistent hfit.1 hrec, ?_⟩
    rw [← View.slot_of_recovering hrec]
    exact (View.lostReplica_release p.view n c info).waiting
  | _ => exact hstrips.elim

/-- The replicas that are being filled are taken down, and nothing else changes. -/
theorem failRecoveringReplicas_strips (hp : p.Sound) (s : ShardId) (message : String) :
    Leads F (failRecoveringReplicas s message) p fun _ q =>
      q.Sound ∧ q = { p with view := q.view } ∧
        View.Stripped s (p.unassignedInfo .primaryFailed (some message)) p.view q.view := by
  refine (failRecoveringReplicas_leads
    (G := Strips (p.unassignedInfo .primaryFailed (some message))) hp s message
    fun _ _ _ _ _ _ hrec => ⟨hrec, rfl⟩).mono ?_
  rintro - q ⟨hruns, hnone, hkept⟩
  have hq := hruns.sound hp
  have hsteps := hruns.invariant_of_sound hp (I := fun r => View.Confined s p.view r.view ∧
    r.history = p.history ∧ ∃ gone, gone + r.view.recoveringCount s = p.view.recoveringCount s ∧
      r.view.unassignedOf s = p.view.unassignedOf s ++ List.replicate gone
        (View.strippedSlot s (p.unassignedInfo .primaryFailed (some message))))
    ⟨.refl s p.view, rfl, 0, Nat.zero_add _, (List.append_nil _).symm⟩ ?_
  · obtain ⟨hconfined, hhistory, gone, hcount, hwaiting⟩ := hsteps
    obtain ⟨hstate, hsettings, htime, -⟩ := hruns.frame
    -- none is left, so as many are gone as there were
    rw [View.recoveringCount_eq_zero hq.view.consistent.indexed hnone, Nat.add_zero] at hcount
    refine ⟨hq, ?_, hconfined,
      fun k d => ⟨fun hd => ?_, fun hd => (hkept k d hd.2).mpr hd.1⟩, hcount ▸ hwaiting⟩
    · cases q
      simp only at hstate hsettings htime hhistory
      rw [hstate, hsettings, htime, hhistory]
    · have hidle := hnone k d hd
      exact ⟨(hkept k d hidle).mp hd, hidle⟩
  · rintro r ch - hr ⟨hconfined, hhistory, gone, hcount, hslots⟩ hfit hguard
    obtain ⟨hstep, hsame, hless, hnew⟩ := strips_apply hr hfit hguard
    refine ⟨hconfined.trans hstep, hsame.trans hhistory, gone + 1, by omega, ?_⟩
    rw [hnew, hslots, List.append_assoc, ← List.replicate_succ']

/-- Every report of a failed copy does what it owes and changes nothing but the view. -/
theorem applyFailed_failed (hp : p.Sound) (r : FailedReport) :
    ∃ q, applyFailed r p = .ok () q ∧ q = { p with view := q.view } ∧
      View.Failed r.shard r.node (p.unassignedInfo .allocationFailed (some r.reason))
        (p.unassignedInfo .primaryFailed (some s!"primary failed: {r.reason}")) p.view q.view := by
  have hv := hp.view.consistent
  suffices hleads : Leads False (applyFailed r) p fun _ q => q = { p with view := q.view } ∧
      View.Failed r.shard r.node (p.unassignedInfo .allocationFailed (some r.reason))
        (p.unassignedInfo .primaryFailed (some s!"primary failed: {r.reason}")) p.view q.view by
    obtain ⟨⟨⟩, q, hrun, hq⟩ := hleads.exists_ok id
    exact ⟨q, hrun, hq⟩
  refine leads_get ?_
  cases hc : p.view.copyOn? r.shard r.node with
  | none =>
    refine leads_pure ⟨rfl, .refl _ _, ?_⟩
    rw [hc]
  | some c =>
    obtain ⟨hshard, -⟩ := hv.own hc
    rw [← hshard] at hc ⊢
    simp only
    by_cases ht : c.isRelocationTarget = true
    · -- the target of a move fails, and the move is called back at its source
      obtain ⟨hinit, hsome⟩ := Copy.isRelocationTarget_iff.mp ht
      obtain ⟨k, hpeer⟩ := Option.isSome_iff_exists.mp hsome
      obtain ⟨d, hd, hrel, hback⟩ := (hv.linked _).source hc hinit hpeer
      have hdshard := (hv.own hd).1
      rw [if_pos ht, hpeer, Option.getD_some]
      rw [← hdshard] at hc hd ⊢
      refine leads_of_ok (mutate_eq (.cancel d k) (cancelRelocation_onView hv hd hrel) rfl)
        ⟨rfl, View.confined_settle hv hd _, ?_⟩
      rw [hc]
      simp only [ht, if_true]
      exact View.recalled_settle hv hd hback hc _
    · have ht : c.isRelocationTarget = false := Bool.not_eq_true _ ▸ ht
      simp only [ht, Bool.false_eq_true, if_false]
      by_cases hprim : c.primary = true
      · simp only [hprim, if_true]
        refine (failRecoveringReplicas_strips hp c.shard _).bind ?_
        rintro - q ⟨hq, hframe, hstripped⟩
        have hqv : q.view.Sound p.state.metadata := by
          rw [hframe] at hq
          exact hq.view
        obtain ⟨hconfined, hlost⟩ : View.Confined c.shard p.view (q.view.surrender r.node c
            (p.unassignedInfo .allocationFailed (some r.reason))) ∧ _ :=
          hstripped.lostPrimary hp.view hqv hc ht hprim
        refine (surrender_eq_leads hq ?_ ht hprim).mono ?_
        · exact (hstripped.copies _ _).mpr ⟨hc, View.not_recovering_of_primary hprim⟩
        rintro - u rfl
        refine ⟨by rw [hframe]; rfl, hconfined, ?_⟩
        rw [hc]
        simp only [ht, hprim, Bool.false_eq_true, if_false, if_true]
        exact hlost
      · have hreplica : c.primary = false := Bool.not_eq_true _ ▸ hprim
        simp only [hreplica, Bool.false_eq_true, if_false]
        have hrun := View.unassign_eq hv hc ht (p.unassignedInfo .allocationFailed (some r.reason))
        refine leads_bind_ok (mutate_eq (.release c r.node _) hrun rfl) (leads_pure
          ⟨rfl, View.confined_release hv hc, ?_⟩)
        rw [hc]
        simp only [ht, hreplica, Bool.false_eq_true, if_false]
        exact View.lostReplica_release p.view r.node c _

end Pass

end ShardAllocation
