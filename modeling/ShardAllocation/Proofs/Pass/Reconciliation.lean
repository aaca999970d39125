/-
What the reconciliation of departed nodes makes of a shard.

Beside the copies that remain, the view tells which slots wait afterwards (`View.Frees`) and
whether a replica takes over (`View.succeeds`).  A change of the reconciliation leaves this as
it was, apart from the copy that it frees or raises, and a view that knows members only is what
remains of itself.  So a run of such changes that ends in one is determined by the view that it
starts from, up to the choice of the replica that takes over.

* `Becomes` — what the run makes of a shard;
* `Becomes.of_change` — what a shard becomes is what it became before the change;
* `Runs.becomes` — a run of the reconciliation makes this of every shard.
-/
import ShardAllocation.Proofs.Pass.Remains

namespace ShardAllocation

namespace View

open Pass (hasLiveReplica NoRecovering)

/-- Whether a replica takes over from the primary of a shard. -/
def succeeds (v : View) (s : ShardId) : Bool := v.primaryLeft s && hasLiveReplica v s

/-- The copy on the node goes, and its slot waits: it is no target of a move, nothing of it
remains, and if it is the primary, then no replica takes over. -/
structure Frees (v : View) (s : ShardId) (n : NodeId) (c : Copy) : Prop where
  copy : v.copyOn? s n = some c
  slot : c.isRelocationTarget = false
  gone : v.remains s n = none
  unfollowed : c.primary = true → hasLiveReplica v s = false

/-- What the reconciliation makes of a shard: `u` from `v`. -/
structure Becomes (s : ShardId) (v u : View) : Prop where
  layout : v.succeeds s = false → u.copyOn? s = v.remains s
  raised : v.succeeds s = true → ∃ k r, v.remains s k = some r ∧ r.primary = false ∧
    r.isActive = true ∧ u.copyOn? s = Layout.promote (v.remains s) k r
  slots : ∃ lost : List (Copy × UnassignedInfo), (lost.map (·.1)).Nodup ∧
    (∀ c, c ∈ lost.map (·.1) ↔ ∃ n, v.Frees s n c) ∧
    u.unassignedOf s = v.unassignedOf s ++ lost.map fun e => e.1.slot e.2
  count : u.slotCount s + (v.succeeds s).toNat = v.slotCount s

variable {v w u : View} {s t : ShardId} {n k : NodeId} {c d : Copy} {m : Metadata}
variable {info : UnassignedInfo}

/-! ### What a change does not matter to -/

/-- The same copies go, if those that are no targets and of which nothing remains are the
same. -/
theorem frees_congr (hv : v.Consistent) (hw : w.Consistent) (hremains : w.remains s = v.remains s)
    (hcopy : d.isRelocationTarget = false → v.remains s k = none →
      (w.copyOn? s k = some d ↔ v.copyOn? s k = some d)) :
    w.Frees s k d ↔ v.Frees s k d := by
  have hlive := hasLiveReplica_congr hv hw hremains
  constructor
  · rintro ⟨hd, ht, hgone, hprim⟩
    rw [hremains] at hgone
    rw [hlive] at hprim
    exact ⟨(hcopy ht hgone).mp hd, ht, hgone, hprim⟩
  · rintro ⟨hd, ht, hgone, hprim⟩
    exact ⟨(hcopy ht hgone).mpr hd, ht, by rw [hremains, hgone], by rw [hlive]; exact hprim⟩

/-- What becomes of a shard does not change while nothing is changed that matters to it. -/
theorem Becomes.of_kept (hremains : w.remains s = v.remains s)
    (hsucceeds : w.succeeds s = v.succeeds s) (hslots : w.unassignedOf s = v.unassignedOf s)
    (hfrees : ∀ k d, w.Frees s k d ↔ v.Frees s k d) (hcount : w.slotCount s = v.slotCount s)
    (h : Becomes s w u) : Becomes s v u := by
  constructor
  case layout =>
    intro hnone
    rw [h.layout (hsucceeds.trans hnone), hremains]
  case raised =>
    intro hsome
    have hraised := h.raised (hsucceeds.trans hsome)
    rwa [hremains] at hraised
  case slots =>
    obtain ⟨lost, hnodup, hmem, heq⟩ := h.slots
    refine ⟨lost, hnodup, fun c => ?_, by rw [heq, hslots]⟩
    rw [hmem]
    exact exists_congr fun k => hfrees k c
  case count => rw [← hsucceeds, h.count, hcount]

/-- A change of another shard does not matter. -/
theorem Becomes.of_other (hv : v.Consistent) (hw : w.Consistent) (hlive : w.live = v.live)
    (hcopies : w.copyOn? s = v.copyOn? s) (hslots : w.unassignedOf s = v.unassignedOf s)
    (h : Becomes s w u) : Becomes s v u := by
  have hleft : w.primaryLeft s = v.primaryLeft s :=
    primaryLeft_congr hv hw hlive fun k d _ _ _ => by rw [hcopies]
  have hremains : w.remains s = v.remains s := funext fun k =>
    remains_congr hlive (by rw [hcopies]) fun _ _ _ => hleft
  have hreplica := hasLiveReplica_congr hv hw hremains
  refine h.of_kept hremains (by rw [succeeds, hleft, hreplica, succeeds]) hslots
    (fun k d => frees_congr hv hw hremains fun _ _ => by rw [hcopies]) ?_
  rw [slotCount, slotCount, copies_congr hv.indexed hw.indexed hcopies, hslots]

/-! ### The changes of a shard -/

/-- A move to a node that left is called back. -/
theorem Becomes.of_settle (hv : v.Consistent) (hc : v.copyOn? c.shard n = some c)
    (hrel : c.state = .relocating) (hn : v.isLive n = true) (hp : c.peer = some k)
    (hk : v.isLive k = false) (h : Becomes c.shard (v.settle n c) u) : Becomes c.shard v u := by
  have hw := hv.settle hc
  have ht := Copy.isRelocationTarget_of_active (Copy.isActive_iff.mpr (.inr hrel))
  obtain ⟨hremains, hself⟩ := remains_settle hv hc hrel hn hp hk
  refine h.of_kept hremains ?_ ?_ (fun j d => frees_congr hv hw hremains fun htd hgone => ?_) ?_
  · rw [succeeds, primaryLeft_settle hv hc ht hn, hasLiveReplica_congr hv hw hremains, succeeds]
  · rw [unassignedOf, (sameFrame_settle v n c).unassigned, unassignedOf]
  · -- the copy that stays is no copy that goes
    have hjn : j ≠ n := by
      rintro rfl
      rw [hself] at hgone
      cases hgone
    rw [layout_settle, Layout.settle_eq_some]
    constructor
    · rintro (⟨heq, -⟩ | ⟨-, -, hd⟩)
      · exact absurd heq hjn
      · exact hd
    · exact fun hd => .inr ⟨hjn, (hv.linked _).peer_ne hc ht hd htd, hd⟩
  · rw [slotCount_eq, slotCount_eq, roleCount_settle hv hc]

/-- A copy goes of which nothing remains, and its slot waits. -/
theorem Becomes.of_release (hv : v.Sound m) (hc : v.copyOn? c.shard n = some c)
    (ht : c.isRelocationTarget = false) (hgone : v.remains c.shard n = none)
    (hprimary : c.primary = true → hasLiveReplica v c.shard = false ∧ NoRecovering v c.shard)
    (h : Becomes c.shard (v.release n c info) u) : Becomes c.shard v u := by
  have hcons := hv.consistent
  have hw : (v.release n c info).Consistent := hcons.release hc
  have hlayout : (v.release n c info).copyOn? c.shard = Layout.vacate (v.copyOn? c.shard) n c :=
    layout_vacate v n c
  have hremains : (v.release n c info).remains c.shard = v.remains c.shard := by
    refine remains_vacate hcons hc ht hgone fun k d hd hrec => ?_
    cases hprim : c.primary with
    | false => exact primaryLeft_vacate_of_replica hcons hc ht hprim
    | true =>
      rw [(hprimary hprim).2 k d hd] at hrec
      cases hrec
  have hreplica := hasLiveReplica_congr hcons hw hremains
  have hsucceeds : (v.release n c info).succeeds c.shard = v.succeeds c.shard := by
    rw [succeeds, hreplica, succeeds]
    cases hprim : c.primary with
    | false => exact congrArg (· && _) (primaryLeft_vacate_of_replica hcons hc ht hprim)
    | true => rw [(hprimary hprim).1, Bool.and_false, Bool.and_false]
  have hslots : (v.release n c info).unassignedOf c.shard =
      v.unassignedOf c.shard ++ [c.slot info] := by
    rw [unassignedOf_release, if_pos rfl]
  have hfrees : ∀ k d, k ≠ n → ((v.release n c info).Frees c.shard k d ↔ v.Frees c.shard k d) :=
    fun k d hk => frees_congr hcons hw hremains fun htd _ => by
      rw [hlayout, Layout.vacate_eq_some]
      exact ⟨fun hd => hd.2.2, fun hd => ⟨hk, (hcons.linked _).peer_ne hc ht hd htd, hd⟩⟩
  have hempty : ∀ {d}, ¬ (v.release n c info).Frees c.shard n d := fun hd => by
    have hcopy := hd.copy
    rw [hlayout] at hcopy
    exact (Layout.vacate_eq_some.mp hcopy).1 rfl
  constructor
  case layout =>
    intro hnone
    rw [h.layout (hsucceeds.trans hnone), hremains]
  case raised =>
    intro hsome
    have hraised := h.raised (hsucceeds.trans hsome)
    rwa [hremains] at hraised
  case slots =>
    obtain ⟨lost, hnodup, hmem, heq⟩ := h.slots
    refine ⟨(c, info) :: lost, ?_, fun d => ?_, ?_⟩
    · -- the copy is gone, so it does not go once more
      refine List.nodup_cons.mpr ⟨fun hagain => ?_, hnodup⟩
      obtain ⟨k, hk⟩ := (hmem c).mp hagain
      have hkn : k = n :=
        Option.some_inj.mp ((hw.own hk.copy).2.symm.trans (hcons.own hc).2)
      exact hempty (hkn ▸ hk)
    · rw [List.map_cons, List.mem_cons, hmem]
      constructor
      · rintro (rfl | ⟨k, hk⟩)
        · exact ⟨n, hc, ht, hgone, fun hprim => (hprimary hprim).1⟩
        · exact ⟨k, (hfrees k d fun heq => hempty (heq ▸ hk)).mp hk⟩
      · rintro ⟨k, hk⟩
        by_cases hkn : k = n
        · exact .inl (Option.some_inj.mp ((hkn ▸ hk.copy).symm.trans hc))
        · exact .inr ⟨k, (hfrees k d hkn).mpr hk⟩
    · rw [heq, hslots, List.append_assoc]
      rfl
  case count =>
    have hcount := h.count
    rwa [hsucceeds, slotCount_eq (v.release n c info), roleCount_release hcons hc,
      ← slotCount_eq] at hcount

/-- What a replica that takes over makes of the shard: it is raised among the copies that remain,
and no primary is on a departed node any more. -/
structure Raises (s : ShardId) (v x w : View) (k : NodeId) (r : Copy) : Prop where
  copy : x.copyOn? s k = some r
  replica : r.primary = false
  active : r.isActive = true
  live : v.isLive k = true
  vacated : x.remains s = v.remains s
  layout : w.copyOn? s = Layout.promote (x.copyOn? s) k r
  remains : w.remains s = Layout.promote (v.remains s) k r
  followed : w.primaryLeft s = false

theorem raises_handOver (hv : v.Sound m) (hc : v.copyOn? c.shard n = some c)
    (ht : c.isRelocationTarget = false) (hprim : c.primary = true)
    (hcan : v.promotable c.shard ≠ []) (hn : v.isLive n = false)
    (hrec : NoRecovering v c.shard) :
    ∃ k r, Raises c.shard v ((v.vacate n c).noted (.dropped c.shard n)) (v.handOver n c) k r := by
  obtain ⟨r, k, hshard, hr, hreplica, hactive, hk, heq⟩ := hv.handOver_spec hc ht hprim hcan
  have hx : ((v.vacate n c).noted (.dropped c.shard n)).Consistent := hv.consistent.drop hc
  have hvacated : ((v.vacate n c).noted (.dropped c.shard n)).remains c.shard =
      v.remains c.shard :=
    remains_vacate hv.consistent hc ht (remains_of_not_isLive hn) fun j d hd hdrec => by
      rw [hrec j d hd] at hdrec
      cases hdrec
  have hleft : ((v.vacate n c).noted (.dropped c.shard n)).primaryLeft c.shard = false :=
    primaryLeft_vacate_of_primary hv hc ht hprim
  have hlive : ((v.vacate n c).noted (.dropped c.shard n)).isLive k = true := by
    rw [← hk]
    exact congrArg (·.contains k) (sameFrame_vacate v n c).live
  have hlayout := layout_promote (hx.linked _) hr
  have hremains := remains_promote hx hr hactive hlive (by rw [hshard]; exact hleft)
  have hfollowed := primaryLeft_promote hx hr hactive hlive
  rw [hshard] at hr hlayout hremains hfollowed
  refine ⟨k, r, hr, hreplica, hactive, hk, hvacated, ?_, ?_, ?_⟩
  · rw [heq]
    exact hlayout
  · rw [heq, ← hvacated]
    exact hremains
  · rw [heq, ← hleft]
    exact hfollowed

/-- The copies that go are the same after the hand over: the raised replica and the target of its
move remain, and the primary's slot was to be followed. -/
theorem frees_handOver (hv : v.Sound m) (hc : v.copyOn? c.shard n = some c)
    (ht : c.isRelocationTarget = false) (hprim : c.primary = true)
    (hcan : v.promotable c.shard ≠ []) {r : Copy} (h : Raises c.shard v
      ((v.vacate n c).noted (.dropped c.shard n)) (v.handOver n c) k r) {j : NodeId} :
    (v.handOver n c).Frees c.shard j d ↔ v.Frees c.shard j d := by
  have hx : ((v.vacate n c).noted (.dropped c.shard n)).Consistent := hv.consistent.drop hc
  have hvacate : ((v.vacate n c).noted (.dropped c.shard n)).copyOn? c.shard =
      Layout.vacate (v.copyOn? c.shard) n c := layout_vacate v n c
  have htr := Copy.isRelocationTarget_of_active h.active
  have hapart : ∀ {e}, ((v.vacate n c).noted (.dropped c.shard n)).copyOn? c.shard j = some e →
      e.isRelocationTarget = false → r.peer ≠ some j :=
    fun he hte => (hx.linked _).peer_ne h.copy htr he hte
  obtain ⟨e₀, he₀⟩ := exists_remains hx h.copy h.active
    (h.live ▸ congrArg (·.contains k) (sameFrame_vacate v n c).live)
  rw [h.vacated] at he₀
  constructor
  · rintro ⟨hd, htd, hgone, -⟩
    have hjk : j ≠ k := by
      rintro rfl
      rw [h.remains, Layout.promote, if_pos (.inl rfl), he₀] at hgone
      cases hgone
    rw [h.layout] at hd
    obtain ⟨e, he, hde⟩ := Layout.promote_eq_some.mp hd
    have hte : e.isRelocationTarget = false := by
      rw [hde] at htd
      split at htd <;> exact htd
    have hpeer := hapart he hte
    rw [if_neg (not_or.mpr ⟨hjk, hpeer⟩)] at hde
    subst hde
    rw [h.remains, Layout.promote_of_ne hjk hpeer] at hgone
    rw [hvacate] at he
    obtain ⟨hjn, -, he⟩ := Layout.vacate_eq_some.mp he
    exact ⟨he, htd, hgone, fun hdprim =>
      absurd (hv.primary_unique hc he ht htd hprim hdprim) hjn⟩
  · rintro ⟨hd, htd, hgone, hunfollowed⟩
    have hdprim : d.primary = false := by
      by_contra hdprim
      have hnone := hunfollowed (Bool.not_eq_false _ ▸ hdprim)
      rw [(hasLiveReplica_iff hv.consistent.indexed).mpr hcan] at hnone
      cases hnone
    have hjn : j ≠ n := by
      rintro rfl
      obtain rfl : d = c := Option.some_inj.mp (hd.symm.trans hc)
      rw [hprim] at hdprim
      cases hdprim
    have hjk : j ≠ k := by
      rintro rfl
      rw [hgone] at he₀
      cases he₀
    have hstill : ((v.vacate n c).noted (.dropped c.shard n)).copyOn? c.shard j = some d := by
      rw [hvacate]
      exact (hv.consistent.linked _).vacate_of_slot hc ht hd htd hjn
    have hpeer := hapart hstill htd
    refine ⟨?_, htd, ?_, fun h => ?_⟩
    · rw [h.layout, Layout.promote_of_ne hjk hpeer, hstill]
    · rw [h.remains, Layout.promote_of_ne hjk hpeer, hgone]
    · rw [hdprim] at h
      cases h

/-- The primary goes, and a replica takes over. -/
theorem Becomes.of_handOver (hv : v.Sound m) (hc : v.copyOn? c.shard n = some c)
    (ht : c.isRelocationTarget = false) (hprim : c.primary = true)
    (hcan : v.promotable c.shard ≠ []) (hn : v.isLive n = false)
    (hrec : NoRecovering v c.shard) (h : Becomes c.shard (v.handOver n c) u) :
    Becomes c.shard v u := by
  obtain ⟨k, r, hraises⟩ := raises_handOver hv hc ht hprim hcan hn hrec
  have hx : ((v.vacate n c).noted (.dropped c.shard n)).Consistent := hv.consistent.drop hc
  have hbefore : v.succeeds c.shard = true := by
    rw [succeeds, Bool.and_eq_true]
    exact ⟨(primaryLeft_iff hv.consistent).mpr ⟨n, c, hc, hprim, ht, hn⟩,
      (hasLiveReplica_iff hv.consistent.indexed).mpr hcan⟩
  have hafter : (v.handOver n c).succeeds c.shard = false := by
    rw [succeeds, hraises.followed, Bool.false_and]
  constructor
  case layout =>
    intro hnone
    rw [hbefore] at hnone
    cases hnone
  case raised =>
    intro _
    obtain ⟨d, hd, hdprim, hdactive, hsame⟩ := exists_promote_remains hx hraises.copy
      hraises.active (hraises.live ▸ congrArg (·.contains k) (sameFrame_vacate v n c).live)
    rw [hraises.vacated] at hd hsame
    refine ⟨k, d, hd, hdprim.trans hraises.replica, hdactive, ?_⟩
    rw [h.layout hafter, hraises.remains, hsame]
  case slots =>
    obtain ⟨lost, hnodup, hmem, heq⟩ := h.slots
    refine ⟨lost, hnodup, fun d => ?_, ?_⟩
    · rw [hmem]
      exact exists_congr fun j => frees_handOver hv hc ht hprim hcan hraises
    · rw [heq, unassignedOf, hv.unassigned_handOver hc ht hprim hcan, unassignedOf]
  case count =>
    have hcount := h.count
    have hless := hv.roleCount_handOver hc ht hprim hcan c.shard fun _ => true
    rw [hafter, Bool.toNat_false, slotCount_eq (v.handOver n c)] at hcount
    rw [hbefore, Bool.toNat_true, slotCount_eq v]
    simp only [beq_self_eq_true, Bool.and_self, Bool.toNat_true] at hless
    omega

/-! ### A run of changes -/

/-- What becomes of a shard is what became of it before a change of the reconciliation. -/
theorem Becomes.of_change {p : Pass} {ch : Change} (hp : p.Sound)
    (hfit : ch.Fits p.state.metadata p.view) (hguard : p.Reconciles ch)
    (h : Becomes s (ch.onView p.view) u) : Becomes s p.view u := by
  have hv := hp.view.consistent
  by_cases hs : ch.shard? = some s
  · cases ch with
    | cancel c n =>
      obtain rfl : c.shard = s := Option.some_inj.mp hs
      obtain ⟨hc, hrel⟩ := hfit
      obtain ⟨hn, k, hpeer, hk⟩ := hguard
      have hsettled : Becomes c.shard (p.view.settle n c) u :=
        h.of_other (hv.settle hc) ((hv.settle hc).noted _) rfl rfl rfl
      exact hsettled.of_settle hv hc hrel hn hpeer hk
    | release c n info =>
      obtain rfl : c.shard = s := Option.some_inj.mp hs
      obtain ⟨hc, ht⟩ := hfit
      refine Becomes.of_release hp.view hc ht ?_ (fun hprim => ?_) h
      · rcases hguard with ⟨hrec, hleft⟩ | ⟨hn, -⟩
        · exact remains_of_recovering hc hrec hleft
        · exact remains_of_not_isLive hn
      · rcases hguard with ⟨hrec, -⟩ | ⟨-, hlost⟩
        · rw [(isRecoveringReplica_iff.mp hrec).1] at hprim
          cases hprim
        · exact hlost hprim
    | handOver c n =>
      obtain rfl : c.shard = s := Option.some_inj.mp hs
      obtain ⟨hc, ht, hprim, hcan⟩ := hfit
      exact Becomes.of_handOver hp.view hc ht hprim hcan hguard.1 hguard.2 h
    | forget n => cases hs
    | _ => exact hguard.elim
  · exact h.of_other hv (hp.apply hfit).view.consistent (live_onView p.view ch)
      (copyOn?_onView_of_ne hv hfit hs) (unassignedOf_onView_of_ne hv hfit hs)

/-- A view that knows members only is what the reconciliation makes of itself. -/
theorem Becomes.refl (hv : v.Consistent) (hlive : v.NodesIn fun k => v.isLive k = true) :
    Becomes s v v := by
  have hheld : ∀ k c, v.copyOn? s k = some c → v.isLive k = true :=
    fun _ _ hc => hlive.of_copyOn? hc
  have hremains := remains_of_isLive hv hheld
  have hnone : v.succeeds s = false := by
    rw [succeeds, primaryLeft_of_isLive hv hheld, Bool.false_and]
  constructor
  case layout => exact fun _ => hremains.symm
  case raised =>
    intro hsome
    rw [hnone] at hsome
    cases hsome
  case slots =>
    refine ⟨[], List.nodup_nil, fun c => ⟨fun hc => absurd hc List.not_mem_nil, ?_⟩,
      (List.append_nil _).symm⟩
    rintro ⟨n, hc, -, hgone, -⟩
    rw [hremains, hc] at hgone
    cases hgone
  case count => rw [hnone, Bool.toNat_false, Nat.add_zero]

end View

namespace Pass

variable {p q : Pass}

/-- What the changes of the reconciliation make of a shard, once no departed node is left. -/
theorem Runs.becomes (h : Runs Reconciles p q) (hp : p.Sound) (hq : q.AllLive) (s : ShardId) :
    View.Becomes s p.view q.view := by
  have key : ∀ u, View.Becomes s q.view u → View.Becomes s p.view u := by
    clear hq
    induction h with
    | refl => exact fun _ hu => hu
    | step hruns hfit hguard ih =>
      exact fun u hu => ih u (View.Becomes.of_change (hruns.sound hp) hfit hguard hu)
  exact key _ (.refl (h.sound hp).view.consistent hq)

end Pass

end ShardAllocation
