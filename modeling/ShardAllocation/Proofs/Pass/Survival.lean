/-
What a pass leaves of the data of a shard.

Under `replicaAfterPrimaryActive` replicas are filled from an active primary only.  So
between passes a shard has replicas on nodes only beside an active primary, and when a pass
loses the primary, the replicas that are left sit on nodes that left as well.

* `Led`, `Following` — a shard between two passes and inside one;
* `led_apply_start`, `following_apply`, `Following.led` — a pass leads from one to the other
  and back;
* `Survives` — the primary is active, and an active copy is on a member;
* `survives_apply` — no change takes that from a shard that no report says failed.
-/
import ShardAllocation.Proofs.Pass.Active
import ShardAllocation.Proofs.Pass.Placement

namespace ShardAllocation

namespace View

variable {v : View} {s : ShardId} {n : NodeId} {c : Copy} {m : Metadata} {info : UnassignedInfo}

/-- The shard has replicas on nodes only beside an active primary. -/
def Led (v : View) (s : ShardId) : Prop :=
  v.ActivePrimary s ∨ ∀ n c, v.copyOn? s n = some c → c.primary = true

/-- Every replica of the shard has a full set of data on a node that left. -/
def Deserted (v : View) (s : ShardId) : Prop :=
  ∀ n c, v.copyOn? s n = some c → c.primary = false → c.isRelocationTarget = false →
    c.isActive = true ∧ v.isLive n = false

/-- The shard has replicas only beside an active primary, or on nodes that left. -/
def Following (v : View) (s : ShardId) : Prop := v.ActivePrimary s ∨ v.Deserted s

/-- The primary of the shard is active, and so is a copy on a member. -/
structure Survives (v : View) (s : ShardId) : Prop where
  primary : v.ActivePrimary s
  live : Layout.HasActive (fun n _ => v.isLive n = true) (v.copyOn? s)

theorem Led.following (h : v.Led s) : v.Following s := by
  refine h.imp_right fun hall n c hc hreplica => ?_
  rw [hall n c hc] at hreplica
  cases hreplica

theorem Led.survives (h : v.Led s)
    (hlive : Layout.HasActive (fun n _ => v.isLive n = true) (v.copyOn? s)) : v.Survives s := by
  refine ⟨h.elim id fun hall => ?_, hlive⟩
  obtain ⟨n, c, hc, hactive, -⟩ := hlive
  exact ⟨n, c, hc, hactive, hall n c hc⟩

/-- Where no replica on a member has data, and none is being filled, all have left. -/
theorem deserted_of_promotable (h : v.Consistent) (hnone : v.promotable s = [])
    (hfilled : Pass.NoRecovering v s) : v.Deserted s := by
  intro n c hc hprim ht
  have hactive : c.isActive = true := by
    rcases (h.linked s).isActive_or hc with hactive | hinit
    · exact hactive
    · have hrecovering := isRecoveringReplica_iff.mpr ⟨hprim, hinit, ht⟩
      rw [hfilled n c hc] at hrecovering
      cases hrecovering
  refine ⟨hactive, ?_⟩
  by_contra hlive
  have hmem : c ∈ v.promotable s := (mem_promotable h.indexed).mpr
    ⟨⟨n, hc⟩, hprim, hactive, by simpa [(h.own hc).2] using hlive⟩
  rw [hnone] at hmem
  cases hmem

namespace Deserted

theorem vacate (h : v.Deserted c.shard) : (v.vacate n c).Deserted c.shard := by
  intro k d hd hprim ht
  rw [layout_vacate] at hd
  have hold := h k d (Layout.vacate_eq_some.mp hd).2.2 hprim ht
  rwa [isLive, (sameFrame_vacate v n c).live]

/-- A replica whose move is called off stays where it was. -/
theorem settle (h : v.Deserted c.shard) (hc : v.copyOn? c.shard n = some c)
    (hactive : c.isActive = true) : (v.settle n c).Deserted c.shard := by
  intro k d hd hprim ht
  rw [layout_settle] at hd
  rw [isLive, (sameFrame_settle v n c).live]
  rcases Layout.settle_eq_some.mp hd with ⟨rfl, rfl⟩ | ⟨-, -, hd⟩
  · exact ⟨rfl, (h k c hc hprim (Copy.isRelocationTarget_of_active hactive)).2⟩
  · exact h k d hd hprim ht

/-- A replica that moves stays where it was, and the other half is a target. -/
theorem depart {target : NodeId} (h : v.Deserted c.shard) (hc : v.copyOn? c.shard n = some c)
    (hnode : c.node = some n) (hactive : c.isActive = true) :
    (v.depart n target c).Deserted c.shard := by
  intro k d hd hprim ht
  rw [layout_depart] at hd
  rw [isLive, (sameFrame_depart v n target c).live]
  rcases Layout.depart_eq_some.mp hd with ⟨rfl, rfl⟩ | ⟨-, -, rfl⟩ | ⟨-, -, hd⟩
  · exact ⟨rfl, (h k c hc hprim (Copy.isRelocationTarget_of_active hactive)).2⟩
  · simp [Copy.isRelocationTarget, Copy.isInitializing, Copy.arriving, hnode] at ht
  · exact h k d hd hprim ht

/-- A primary that is placed adds no replica. -/
theorem occupy (h : v.Deserted c.shard) (hprim : c.primary = true) :
    (v.occupy n c).Deserted c.shard := by
  intro k d hd hreplica ht
  rw [layout_occupy] at hd
  rcases Layout.fill_eq_some.mp hd with ⟨-, rfl⟩ | ⟨-, hd⟩
  · rw [Copy.placedOn, hprim] at hreplica
    cases hreplica
  · exact h k d hd hreplica ht

end Deserted

/-- Where every replica has left and only members are known, there are none. -/
theorem Following.led (h : v.Following s) (hv : v.Consistent)
    (hlive : v.NodesIn fun k => v.isLive k = true) : v.Led s := by
  refine h.imp_right fun hdeserted n c hc => ?_
  have hslot : ∀ {k d}, v.copyOn? s k = some d → d.isRelocationTarget = false →
      d.primary = true := by
    intro k d hd ht
    by_contra hprim
    have hdead := (hdeserted k d hd (by simpa using hprim) ht).2
    rw [hlive.of_copyOn? hd] at hdead
    cases hdead
  cases ht : c.isRelocationTarget with
  | false => exact hslot hc ht
  | true =>
    -- the target of a move has the role of its source, which is a slot
    obtain ⟨k, hp⟩ := Option.isSome_iff_exists.mp (Copy.isRelocationTarget_iff.mp ht).2
    obtain ⟨d, hd, -, hprim, -⟩ := (hv.linked s).exists_peer hc hp
    have hother := (hv.linked s).isRelocationTarget_peer hc hp hd
    rw [ht] at hother
    exact hprim.symm.trans (hslot hd hother)

end View

namespace Pass

variable {P : Policy} {p : Pass} {ch : Change} {s : ShardId} {n : NodeId} {c : Copy}

/-- A replica is accepted only where the primary is active. -/
theorem Accepts.activePrimary {ds : List Decider} (h : Accepts ds p c n)
    (hv : p.view.Indexed) (hds : Decider.replicaAfterPrimaryActive ∈ ds)
    (hprim : c.primary = false) : p.view.ActivePrimary c.shard := by
  obtain ⟨node, -, hno⟩ := h
  rw [Decider.allocation, Decider.decision_combine] at hno
  have hverdict := Decider.worstOf_ne_no hno _ (List.mem_map_of_mem hds)
  cases hactive : p.view.activePrimary? c.shard with
  | none => simp [Decider.replicaAfterPrimaryActive, hprim, hactive] at hverdict
  | some d =>
    obtain ⟨hd, hactive⟩ := Option.filter_eq_some_iff.mp hactive
    have hrole : d.primary = true ∧ d.isRelocationTarget = false := by
      simpa using List.find?_some (p := fun c : Copy => c.primary && !c.isRelocationTarget) hd
    obtain ⟨k, hk⟩ := (View.mem_copies_iff hv).mp (List.mem_of_find?_eq_some hd)
    exact ⟨k, d, hk, hactive, hrole.1⟩

/-! ### Replicas beside an active primary -/

/-- A primary that is active stays so, unless it leaves its node. -/
theorem activePrimary_apply (hp : p.Sound) (hfit : ch.Fits p.state.metadata p.view)
    (hleave : ∀ c n info, ch = .release c n info ∨ ch = .surrender c n info → c.shard = s →
      ∃ k d, k ≠ n ∧ p.view.copyOn? s k = some d ∧ d.isActive = true ∧ d.primary = true)
    (h : p.view.ActivePrimary s) : (ch.apply p).view.ActivePrimary s :=
  View.hasActive_onView hp.view hfit (fun _ _ => rfl) (fun _ _ _ _ _ h => h) hleave h

theorem led_apply_start (hp : p.Sound) (hfit : ch.Fits p.state.metadata p.view)
    (hstart : P.Completes p ch) (h : p.view.Led s) : (ch.apply p).view.Led s := by
  by_cases hs : ch.shard? = some s
  swap
  · have hsame := View.copyOn?_onView_of_ne hp.view.consistent hfit hs
    unfold View.Led View.ActivePrimary at *
    rw [Change.apply, hsame]
    exact h
  cases ch with
  | start c n =>
    obtain rfl : c.shard = s := Option.some_inj.mp hs
    rcases h with hactive | hall
    · refine .inl (activePrimary_apply hp hfit ?_ hactive)
      rintro _ _ _ (heq | heq) <;> cases heq
    · refine .inr fun k d hd => ?_
      have hd : (p.view.settle n c).copyOn? c.shard k = some d := hd
      rw [View.layout_settle] at hd
      rcases Layout.settle_eq_some.mp hd with ⟨-, rfl⟩ | ⟨-, -, hd⟩
      · exact hall n c hfit.1
      · exact hall k d hd
  | _ => exact absurd hstart id

/-- An active primary is released only where all replicas have left. -/
theorem following_release {info : UnassignedInfo} (hp : p.Sound)
    (hc : p.view.copyOn? c.shard n = some c) (ht : c.isRelocationTarget = false)
    (hadmits : P.Admits p (.release c n info)) (h : p.view.Following c.shard) :
    ((Change.release c n info).apply p).view.Following c.shard := by
  have hv := hp.view.consistent
  have hleft : p.view.Deserted c.shard →
      ((Change.release c n info).apply p).view.Following c.shard := fun hdeserted =>
    .inr hdeserted.vacate
  rcases h with ⟨k, d, hd, hactive, hprim⟩ | hdeserted
  swap
  · exact hleft hdeserted
  by_cases hk : k = n
  · -- the released copy is the active primary itself
    subst hk
    obtain rfl : c = d := Option.some_inj.mp (hc.symm.trans hd)
    rcases hadmits with hinactive | ⟨hreplica, -⟩ | ⟨-, hnone, hfilled⟩
    · rw [hactive] at hinactive
      cases hinactive
    · rw [hprim] at hreplica
      cases hreplica
    · refine hleft (View.deserted_of_promotable hv ?_ hfilled)
      by_contra hcan
      rw [(View.hasLiveReplica_iff hv.indexed).mpr hcan] at hnone
      cases hnone
  · refine .inl (activePrimary_apply hp ⟨hc, ht⟩ ?_ ⟨k, d, hd, hactive, hprim⟩)
    rintro _ _ _ (heq | heq) -
    · cases heq
      exact ⟨k, d, hk, hd, hactive, hprim⟩
    · cases heq

/-- When a primary is given up, a replica on a member takes over, or there is none. -/
theorem following_surrender {info : UnassignedInfo} (hp : p.Sound)
    (hc : p.view.copyOn? c.shard n = some c) (hfilled : NoRecovering p.view c.shard) :
    ((Change.surrender c n info).apply p).view.Following c.shard := by
  have hreleased : (p.view.release n c info).Consistent := hp.view.consistent.release hc
  show ((p.view.release n c info).takeOver c.shard).Following c.shard
  rcases View.takeOver_cases hreleased c.shard with ⟨hnone, heq⟩ |
    ⟨r, k, -, hshard, hr, -, hactive, -, heq⟩
  · rw [heq]
    refine .inr (View.deserted_of_promotable hreleased hnone fun k d hd => ?_)
    have hd : (p.view.vacate n c).copyOn? c.shard k = some d := hd
    rw [View.layout_vacate] at hd
    exact hfilled k d (Layout.vacate_eq_some.mp hd).2.2
  · have hdone := View.hasActive_promote (P := fun _ primary => primary = true) hreleased hr
      hactive rfl
    rw [hshard] at hdone
    rw [heq]
    exact .inl hdone

theorem following_apply (hp : p.Sound) (hfit : ch.Fits p.state.metadata p.view)
    (hadmits : P.Admits p ch) (hds : Decider.replicaAfterPrimaryActive ∈ P.deciders)
    (h : p.view.Following s) : (ch.apply p).view.Following s := by
  have hv := hp.view.consistent
  by_cases hs : ch.shard? = some s
  swap
  · have hsame := View.copyOn?_onView_of_ne hv hfit hs
    unfold View.Following View.ActivePrimary View.Deserted View.isLive at *
    rw [Change.apply, hsame, View.live_onView]
    exact h
  have hkept := activePrimary_apply (s := s) hp hfit
  cases ch with
  | start c n => exact hadmits.elim
  | cancel c n =>
    obtain rfl : c.shard = s := Option.some_inj.mp hs
    obtain ⟨hc, hstate⟩ := hfit
    exact h.imp (hkept (by rintro _ _ _ (heq | heq) <;> cases heq)) fun hdeserted =>
      hdeserted.settle hc (Copy.isActive_iff.mpr (.inr hstate))
  | relocate c n target =>
    obtain rfl : c.shard = s := Option.some_inj.mp hs
    obtain ⟨hc, hstate, -⟩ := hfit
    exact h.imp (hkept (by rintro _ _ _ (heq | heq) <;> cases heq)) fun hdeserted =>
      hdeserted.depart hc (hv.own hc).2 (Copy.isActive_iff.mpr (.inl hstate))
  | release c n info =>
    obtain rfl : c.shard = s := Option.some_inj.mp hs
    exact following_release hp hfit.1 hfit.2 hadmits h
  | surrender c n info =>
    obtain rfl : c.shard = s := Option.some_inj.mp hs
    exact following_surrender hp hfit.1 hadmits.2
  | handOver c n =>
    obtain rfl : c.shard = s := Option.some_inj.mp hs
    obtain ⟨hc, ht, hprim, hcan⟩ := hfit
    exact .inl (View.hasActive_handOver hp.view hc ht hprim hcan fun _ _ => rfl)
  | install c n =>
    obtain rfl : c.shard = s := Option.some_inj.mp hs
    have hstay := hkept (by rintro _ _ _ (heq | heq) <;> cases heq)
    cases hprim : c.primary with
    | false => exact .inl (hstay (hadmits.1.activePrimary hv.indexed hds hprim))
    | true => exact h.imp hstay fun hdeserted => hdeserted.occupy hprim
  | create c n =>
    obtain rfl : c.shard = s := Option.some_inj.mp hs
    obtain ⟨-, -, hprim, -⟩ := hfit
    have hactive := Accepts.activePrimary hadmits hv.indexed hds hprim
    exact .inl (hkept (by rintro _ _ _ (heq | heq) <;> cases heq) hactive)
  | forget n => cases hs
  | record t a => cases hs

/-! ### Data on a member -/

/-- A copy that is released although it has data leaves a node that left, and it is a replica
or nothing can take over. -/
theorem dead_of_release {info : UnassignedInfo}
    (hguard : P.Completes p (.release c n info) ∨ P.Admits p (.release c n info))
    (hfailed : ¬P.Reported c.shard) (hactive : c.isActive = true) :
    p.view.isLive n = false ∧ (c.primary = false ∨ hasLiveReplica p.view c.shard = false) := by
  rcases hguard.resolve_left id with hno | ⟨hreplica, hreported | hdead⟩ | ⟨hdead, hnone, -⟩
  · rw [hactive] at hno
    cases hno
  · exact absurd hreported hfailed
  · exact ⟨hdead, .inl hreplica⟩
  · exact ⟨hdead, .inr hnone⟩

/-- A copy that leaves its node leaves the data on the members. -/
theorem live_of_release {info : UnassignedInfo} (hc : p.view.copyOn? c.shard n = some c)
    (hguard : P.Completes p (.release c n info) ∨ P.Admits p (.release c n info))
    (hfailed : ¬P.Reported c.shard)
    (h : Layout.HasActive (fun k _ => p.view.isLive k = true) (p.view.copyOn? c.shard)) :
    ∃ k d, k ≠ n ∧ p.view.copyOn? c.shard k = some d ∧ d.isActive = true ∧
      p.view.isLive k = true := by
  obtain ⟨k, d, hd, hactive, hlive⟩ := h
  refine ⟨k, d, ?_, hd, hactive, hlive⟩
  rintro rfl
  obtain rfl : c = d := Option.some_inj.mp (hc.symm.trans hd)
  rw [(dead_of_release hguard hfailed hactive).1] at hlive
  cases hlive

/-- Data on a member stays, whatever the change, unless a report says that a copy failed or was
started on a node that left. -/
theorem live_apply (hp : p.Sound) (hfit : ch.Fits p.state.metadata p.view)
    (hguard : P.Completes p ch ∨ P.Admits p ch) (hfailed : ¬P.Reported s)
    (hstarted : ∀ n, ⟨s, n⟩ ∈ P.trigger.started → p.view.isLive n = true)
    (h : Layout.HasActive (fun n _ => p.view.isLive n = true) (p.view.copyOn? s)) :
    Layout.HasActive (fun n _ => (ch.apply p).view.isLive n = true)
      ((ch.apply p).view.copyOn? s) := by
  have hlive : (ch.apply p).view.isLive = p.view.isLive :=
    funext (View.isLive_onView p.view ch)
  rw [hlive]
  refine View.hasActive_onView (P := fun n _ => p.view.isLive n = true) hp.view hfit
    (fun _ h => h) ?_ ?_ h
  · rintro c n rfl rfl - -
    exact hstarted n (hguard.resolve_right id)
  · rintro c n info (rfl | rfl) rfl
    · exact live_of_release hfit.1 hguard hfailed h
    · -- only a report makes a primary surrender
      exact absurd (hguard.resolve_left id).1 hfailed

/-- When a copy leaves its node, an active primary stays. -/
theorem Survives.of_release {info : UnassignedInfo} (hp : p.Sound)
    (hc : p.view.copyOn? c.shard n = some c)
    (hguard : P.Completes p (.release c n info) ∨ P.Admits p (.release c n info))
    (hfailed : ¬P.Reported c.shard) (h : p.view.Survives c.shard) :
    ∃ k d, k ≠ n ∧ p.view.copyOn? c.shard k = some d ∧ d.isActive = true ∧
      d.primary = true := by
  have hv := hp.view.consistent
  obtain ⟨k, d, hd, hactive, hprim⟩ := h.primary
  by_cases hkn : k = n
  swap
  · exact ⟨k, d, hkn, hd, hactive, hprim⟩
  subst hkn
  obtain rfl : c = d := Option.some_inj.mp (hc.symm.trans hd)
  obtain ⟨-, hreplica | hnone⟩ := dead_of_release hguard hfailed hactive
  · rw [hprim] at hreplica
    cases hreplica
  · -- the copy on the member is no replica, for it could have taken over
    obtain ⟨j, e, hjn, he, hfull, hlive⟩ := live_of_release hc hguard hfailed h.live
    refine ⟨j, e, hjn, he, hfull, ?_⟩
    by_contra hreplica
    have hmem : e ∈ p.view.promotable c.shard := (View.mem_promotable hv.indexed).mpr
      ⟨⟨j, he⟩, by simpa using hreplica, hfull, by simpa [(hv.own he).2] using hlive⟩
    rw [(View.hasLiveReplica_iff hv.indexed).mpr (List.ne_nil_of_mem hmem)] at hnone
    cases hnone

theorem survives_apply (hp : p.Sound) (hfit : ch.Fits p.state.metadata p.view)
    (hguard : P.Completes p ch ∨ P.Admits p ch) (hfailed : ¬P.Reported s)
    (hstarted : ∀ n, ⟨s, n⟩ ∈ P.trigger.started → p.view.isLive n = true)
    (h : p.view.Survives s) : (ch.apply p).view.Survives s := by
  refine ⟨activePrimary_apply hp hfit ?_ h.primary,
    live_apply hp hfit hguard hfailed hstarted h.live⟩
  rintro c n info (rfl | rfl) rfl
  · exact Survives.of_release hp hfit.1 hguard hfailed h
  · -- only a report makes a primary surrender
    exact absurd (hguard.resolve_left id).1 hfailed

end Pass

end ShardAllocation
