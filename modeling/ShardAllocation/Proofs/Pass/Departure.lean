/-
The reconciliation of departed nodes, as a run of changes.

It never ends with a fault, and afterwards the view knows no node but members.  A copy on
a departed node goes together with the other half of its move, which may sit on another
departed node that comes later; the loops therefore carry along which shards and which
nodes are still to be looked at.

* `Reconciles` — the changes that it consists of, each with its occasion;
* `loseCopy_leads`, `reconcileCopy_leads` — one copy;
* `reconcileNode_leads` — one node, which is forgotten;
* `reconcile_leads` — all of them.
-/
import ShardAllocation.Proofs.Pass.Reports

namespace ShardAllocation

namespace View

/-- Whether the primary of a shard is on a node that left. -/
def primaryLeft (v : View) (s : ShardId) : Bool :=
  (v.copies s).any fun c => c.primary && !c.isRelocationTarget && !c.node.any v.isLive

variable {v : View} {s t : ShardId} {n k : NodeId} {c : Copy} {m : Metadata}

theorem primaryLeft_iff (h : v.Consistent) :
    v.primaryLeft s = true ↔ ∃ n c, v.copyOn? s n = some c ∧ c.primary = true ∧
      c.isRelocationTarget = false ∧ v.isLive n = false := by
  simp only [primaryLeft, List.any_eq_true, mem_copies_iff h.indexed, Bool.and_eq_true,
    Bool.not_eq_true', and_assoc]
  constructor
  · rintro ⟨c, ⟨n, hc⟩, hprim, ht, hn⟩
    rw [(h.own hc).2, Option.any_some] at hn
    exact ⟨n, c, hc, hprim, ht, hn⟩
  · rintro ⟨n, c, hc, hprim, ht, hn⟩
    exact ⟨c, ⟨n, hc⟩, hprim, ht, by rw [(h.own hc).2, Option.any_some, hn]⟩

theorem hasLiveReplica_iff (h : v.Indexed) :
    Pass.hasLiveReplica v s = true ↔ v.promotable s ≠ [] := by
  simp only [Pass.hasLiveReplica, List.any_eq_true, List.ne_nil_iff_exists_cons, ne_eq]
  constructor
  · rintro ⟨c, hc, hcan⟩
    simp only [Bool.and_eq_true, Bool.not_eq_true'] at hcan
    have hmem : c ∈ v.promotable s :=
      (mem_promotable h).mpr ⟨(mem_copies_iff h).mp hc, hcan.1.1, hcan.1.2, hcan.2⟩
    cases hlist : v.promotable s with
    | nil => rw [hlist] at hmem; cases hmem
    | cons d rest => exact ⟨d, rest, rfl⟩
  · rintro ⟨c, rest, hlist⟩
    have hmem : c ∈ v.promotable s := by rw [hlist]; exact List.mem_cons_self
    obtain ⟨hc, hprim, hactive, hlive⟩ := (mem_promotable h).mp hmem
    exact ⟨c, (mem_copies_iff h).mpr hc, by simp [hprim, hactive, hlive]⟩

/-- No node gets a copy by a replica that takes over. -/
theorem copyOn?_takeOver_eq_none (h : v.Consistent) (hn : v.copyOn? t n = none) :
    (v.takeOver s).copyOn? t n = none := by
  rcases takeOver_cases h s with ⟨-, heq⟩ | ⟨r, k, -, rfl, hr, -, -, -, heq⟩
  · rw [heq]
    exact hn
  · rw [heq]
    by_cases ht : t = r.shard
    · subst ht
      have hlayout := congrFun (layout_promote (h.linked _) hr) n
      refine hlayout.trans ?_
      simp [Layout.promote, hn]
    · exact (congrFun (copyOn?_promote_of_ne (h.linked _) ht) n).trans hn

/-- Both ends of a move are empty once its copy is gone. -/
theorem copyOn?_vacate_eq_none (hn : k = n ∨ c.peer = some k) :
    (v.vacate n c).copyOn? c.shard k = none := by
  rw [layout_vacate, Layout.vacate]
  rcases hn with rfl | hp
  · rw [if_pos rfl]
  · split
    · rfl
    · rfl

theorem Sound.primary?_vacate (h : v.Sound m) (hc : v.copyOn? c.shard n = some c)
    (hprim : c.primary = true) (t : Transition) :
    ((v.vacate n c).noted t).primary? c.shard = none := by
  have hcount := assignedCount_vacate (q := id) h.consistent hc
  have hone := h.primaries c.shard (h.knows_of_copyOn? hc)
  rw [roleCount] at hone
  rw [hprim, id, Bool.toNat_true] at hcount
  have hnone : (v.vacate n c).primary? c.shard = none := primary?_eq_none (by omega)
  exact hnone

end View

namespace Pass

/-- The changes that the reconciliation consists of, each with its occasion.  A move to a
node that left is called back, a copy on such a node is lost, and so is a replica that was
being filled from a primary there. -/
def Reconciles (p : Pass) : Change → Prop
  | .cancel c n => p.view.isLive n = true ∧ ∃ k, c.peer = some k ∧ p.view.isLive k = false
  | .release c n _ =>
    (View.isRecoveringReplica c = true ∧ p.view.primaryLeft c.shard = true) ∨
      (p.view.isLive n = false ∧ (c.primary = true →
        hasLiveReplica p.view c.shard = false ∧ NoRecovering p.view c.shard))
  | .handOver c n => p.view.isLive n = false ∧ NoRecovering p.view c.shard
  | .forget _ => True
  | _ => False

variable {F : Prop} {p q r : Pass} {c : Copy} {n : NodeId}

/-- Every policy admits the changes of the reconciliation. -/
theorem Reconciles.clears (P : Policy) {ch : Change} (h : Reconciles p ch) : P.Clears p ch := by
  cases ch with
  | cancel c n => exact ⟨trivial, trivial⟩
  | release c n info =>
    rcases h with ⟨hrec, -⟩ | ⟨hn, hlost⟩
    · exact P.clears_of_isRecoveringReplica hrec
    · refine ⟨?_, trivial⟩
      cases hprim : c.primary with
      | false => exact .inr (.inl ⟨hprim, .inr hn⟩)
      | true =>
        obtain ⟨hnone, hrec⟩ := hlost hprim
        exact .inr (.inr ⟨hn, hnone, hrec⟩)
  | handOver c n => exact ⟨h.2, trivial⟩
  | forget n => exact ⟨trivial, trivial⟩
  | _ => exact h.elim

/-! ### One copy -/

/-- A copy and the other half of its move are gone. -/
def Gone (c : Copy) (n : NodeId) (v : View) : Prop :=
  ∀ k, k = n ∨ c.peer = some k → v.copyOn? c.shard k = none

/-- A primary that is forgotten hands over: the two mutations make one change. -/
theorem handOver_leads (hp : p.Sound) (hc : p.view.copyOn? c.shard n = some c)
    (ht : c.isRelocationTarget = false) (hprim : c.primary = true)
    (hcan : p.view.promotable c.shard ≠ []) (hn : p.view.isLive n = false)
    (hrec : NoRecovering p.view c.shard) {p₀ : Pass}
    (hruns : Runs (About c.shard Reconciles) p₀ p) :
    Leads F (mutate (View.drop c.shard n) >>= fun _ =>
      discard (mutate (View.promoteReplica c.shard))) p fun _ q =>
        Runs (About c.shard Reconciles) p₀ q ∧ Gone c n q.view := by
  have hv := hp.view.consistent
  have hvacated : ((p.view.vacate n c).noted (.dropped c.shard n)).Consistent :=
    hv.drop hc
  obtain ⟨o, hpromote⟩ := View.promoteReplica_run hvacated (hp.view.primary?_vacate hc hprim _)
  have hfit : (Change.handOver c n).Fits p.state.metadata p.view := ⟨hc, ht, hprim, hcan⟩
  have hdone : Runs (About c.shard Reconciles) p₀ ((Change.handOver c n).apply p) :=
    hruns.step hfit ⟨⟨hn, hrec⟩, rfl⟩
  have hgone : Gone c n (p.view.handOver n c) := fun k hk =>
    View.copyOn?_takeOver_eq_none hvacated (View.copyOn?_vacate_eq_none hk)
  refine (leads_mutate (Q := fun _ q =>
    q = { p with view := (p.view.vacate n c).noted (.dropped c.shard n) })
    (View.drop_eq hv hc ht) rfl).bind ?_
  rintro - q rfl
  have hsecond : Leads F (mutate (View.promoteReplica c.shard))
      { p with view := (p.view.vacate n c).noted (.dropped c.shard n) } fun _ q =>
        Runs (About c.shard Reconciles) p₀ q ∧ Gone c n q.view :=
    leads_mutate (a := o) (v := p.view.handOver n c) hpromote ⟨hdone, hgone⟩
  refine (leads_discard hsecond).mono ?_
  rintro - q ⟨-, hq⟩
  exact hq

/-- A copy that is released is gone. -/
theorem release_leads (hp : p.Sound) (hc : p.view.copyOn? c.shard n = some c)
    (ht : c.isRelocationTarget = false) (info : UnassignedInfo)
    (hmay : Reconciles p (.release c n info)) {p₀ : Pass}
    (hruns : Runs (About c.shard Reconciles) p₀ p) :
    Leads F (mutate (View.unassign c.shard n info)) p fun _ q =>
      Runs (About c.shard Reconciles) p₀ q ∧ Gone c n q.view := by
  refine (leads_change (G := About c.shard Reconciles) (.release c n info) hruns
    (View.unassign_eq hp.view.consistent hc ht info) rfl ⟨hc, ht⟩ ⟨hmay, rfl⟩).mono ?_
  rintro - q ⟨hq, rfl⟩
  exact ⟨hq, fun k hk => View.copyOn?_vacate_eq_none hk⟩

theorem loseCopy_leads (hp : p.Sound) (hc : p.view.copyOn? c.shard n = some c)
    (ht : c.isRelocationTarget = false) (hn : p.view.isLive n = false)
    (reason : UnassignedReason) (message : String) :
    Leads F (loseCopy c n reason message) p fun _ q =>
      Runs (About c.shard Reconciles) p q ∧ Gone c n q.view := by
  refine leads_get ?_
  cases hprim : c.primary with
  | false =>
    simp only [Bool.not_false, if_true]
    refine release_leads hp hc ht _ (.inr ⟨hn, fun h => ?_⟩) .refl
    rw [hprim] at h
    cases h
  | true =>
    simp only [Bool.not_true, Bool.false_eq_true, if_false]
    have hkeeps := View.not_recovering_of_primary hprim
    refine (failRecoveringReplicas_leads (G := Reconciles) hp c.shard _ ?_).bind ?_
    · -- the primary is still on the node that left
      rintro q d k hruns hkept hd hrec
      have hleft : q.view.primaryLeft c.shard = true :=
        (View.primaryLeft_iff (hruns.sound hp).view.consistent).mpr
          ⟨n, c, (hkept n c hkeeps).mpr hc, hprim, ht, (hruns.isLive_eq n).trans hn⟩
      exact .inl ⟨hrec, by rw [hd, hleft]⟩
    rintro - q ⟨hruns, hrec, hkept⟩
    have hq := hruns.sound hp
    have hstill : q.view.copyOn? c.shard n = some c := (hkept n c hkeeps).mpr hc
    have hleft : q.view.isLive n = false := (hruns.isLive_eq n).trans hn
    refine leads_get ?_
    split
    next hlive =>
      have hcan := (View.hasLiveReplica_iff hq.view.consistent.indexed).mp hlive
      exact handOver_leads hq hstill ht hprim hcan hleft hrec hruns
    next hlive =>
      have hnone : hasLiveReplica q.view c.shard = false := Bool.not_eq_true _ ▸ hlive
      exact release_leads hq hstill ht _ (.inr ⟨hleft, fun _ => ⟨hnone, hrec⟩⟩) hruns

theorem reconcileTarget_leads (hp : p.Sound) (hc : p.view.copyOn? c.shard n = some c)
    (ht : c.isRelocationTarget = true) (hn : p.view.isLive n = false) :
    Leads F (reconcileTarget c n) p fun _ q =>
      Runs (About c.shard Reconciles) p q ∧ q.view.copyOn? c.shard n = none := by
  have hv := hp.view.consistent
  obtain ⟨hinit, hsome⟩ := Copy.isRelocationTarget_iff.mp ht
  obtain ⟨k, hpeer⟩ := Option.isSome_iff_exists.mp hsome
  refine leads_get ?_
  rw [hpeer, Option.getD_some]
  split
  next hlive =>
    -- the source is on a member, and the move is called back there
    exact recall_leads (G := About c.shard Reconciles) hp hc hinit hpeer fun d hd hback =>
      ⟨⟨hlive, n, hback, hn⟩, congrArg some hd⟩
  next hlive =>
    -- the source left as well, and is lost together with its target
    obtain ⟨d, hd, hrel, hback⟩ := (hv.linked _).source hc hinit hpeer
    have hdshard := (hv.own hd).1
    have hdt : d.isRelocationTarget = false :=
      Copy.isRelocationTarget_of_active (Copy.isActive_iff.mpr (.inr hrel))
    rw [← hdshard] at hd ⊢
    simp only [hd]
    exact (loseCopy_leads hp hd hdt (Bool.not_eq_true _ ▸ hlive) _ _).mono
      fun _ q hq => ⟨hq.1, hq.2 n (.inr hback)⟩

theorem reconcileCopy_leads (hp : p.Sound) (hc : p.view.copyOn? c.shard n = some c)
    (hn : p.view.isLive n = false) :
    Leads F (reconcileCopy c n) p fun _ q =>
      Runs (About c.shard Reconciles) p q ∧ q.view.copyOn? c.shard n = none := by
  unfold reconcileCopy
  cases ht : c.isRelocationTarget with
  | true =>
    simp only [if_true]
    exact reconcileTarget_leads hp hc ht hn
  | false =>
    simp only [Bool.false_eq_true, if_false]
    have hlose : ∀ reason message, Leads F (loseCopy c n reason message) p fun _ q =>
        Runs (About c.shard Reconciles) p q ∧ q.view.copyOn? c.shard n = none :=
      fun reason message => (loseCopy_leads hp hc ht hn reason message).mono
        fun _ q hq => ⟨hq.1, hq.2 n (.inl rfl)⟩
    split
    · exact hlose _ _
    · exact hlose _ _

/-! ### One node -/

/-- What the loop over the shards of a departed node keeps: the node holds copies of the
shards that are left only. -/
structure ClearsNode (n : NodeId) (p : Pass) (shards : List ShardId) (q : Pass) : Prop where
  runs : Runs Reconciles p q
  left : ∀ s c, q.view.copyOn? s n = some c → s ∈ shards

/-- A shard is done with once the node holds no copy of it. -/
theorem ClearsNode.advance {s : ShardId} {rest : List ShardId}
    (hq : ClearsNode n p (s :: rest) q) (hruns : Runs Reconciles q r)
    (hgone : r.view.copyOn? s n = none)
    (hother : ∀ t, t ≠ s → r.view.copyOn? t = q.view.copyOn? t) : ClearsNode n p rest r := by
  refine ⟨hq.runs.trans hruns, fun t d hd => ?_⟩
  have hne : t ≠ s := by
    rintro rfl
    rw [hgone] at hd
    cases hd
  rw [hother t hne] at hd
  exact (List.mem_cons.mp (hq.left t d hd)).resolve_left hne

theorem reconcileNode_leads (hp : p.Sound) (hn : p.view.isLive n = false) :
    Leads F (reconcileNode n) p fun _ q =>
      Runs Reconciles p q ∧ q.view.nodes.contains n = false := by
  refine leads_get ?_
  refine Leads.bind (leads_forM (I := ClearsNode n p) ?_ ?_) ?_
  · -- before the loop
    refine ⟨.refl, fun s c hc => ?_⟩
    have hget := View.nodes_get?_of_copyOn? hc
    rw [View.node?, hget, Option.map_some]
    refine SortedMap.mem_keys_iff.mpr ?_
    rw [SortedMap.contains, ← View.copyOn?_eq, hc]
    rfl
  · -- one shard
    intro s rest q hq
    have hsound := hq.runs.sound hp
    have hdead : q.view.isLive n = false := (hq.runs.isLive_eq n).trans hn
    refine leads_get ?_
    split
    next c hc =>
      obtain ⟨rfl, -⟩ := hsound.view.consistent.own hc
      refine (reconcileCopy_leads hsound hc hdead).mono ?_
      rintro - r ⟨hruns, hgone⟩
      exact hq.advance hruns.of_about hgone fun t ht => hruns.copyOn?_of_ne hsound ht
    next hnone => exact leads_pure (hq.advance .refl hnone fun _ _ => rfl)
  · -- after the loop the node is empty, and it is forgotten
    rintro - q hq
    have hempty : ∀ s, q.view.copyOn? s n = none := fun s => by
      cases hc : q.view.copyOn? s n with
      | none => rfl
      | some c => exact absurd (hq.left s c hc) List.not_mem_nil
    have hdead : q.view.isLive n = false := (hq.runs.isLive_eq n).trans hn
    refine (leads_change (G := Reconciles) (.forget n) hq.runs (View.removeNode_eq hempty)
      rfl ⟨hdead, hempty⟩ trivial).mono ?_
    rintro - r ⟨hr, rfl⟩
    refine ⟨hr, ?_⟩
    show (q.view.nodes.erase n).contains n = false
    simp [SortedMap.contains_erase]

/-! ### All nodes -/

/-- The view knows members only. -/
def AllLive (p : Pass) : Prop := p.view.NodesIn fun k => p.view.isLive k = true

theorem mem_departedNodes_iff {v : View} :
    n ∈ v.departedNodes ↔ v.nodes.contains n = true ∧ v.isLive n = false := by
  simp [View.departedNodes, SortedMap.mem_keys_iff]

theorem allLive_iff : p.AllLive ↔ p.view.departedNodes = [] := by
  rw [List.eq_nil_iff_forall_not_mem]
  constructor
  · intro h n hn
    obtain ⟨hmem, hdead⟩ := mem_departedNodes_iff.mp hn
    rw [h n hmem] at hdead
    cases hdead
  · intro h n hn
    by_contra hdead
    exact h n (mem_departedNodes_iff.mpr ⟨hn, Bool.not_eq_true _ ▸ hdead⟩)

/-- Without departed nodes there is nothing to reconcile. -/
theorem AllLive.reconcile_eq (h : p.AllLive) : reconcile p = .ok () p := by
  rw [reconcile, bind_ok (get_eq p), allLive_iff.mp h]
  rfl

/-- A run from a pass that knows members only ends in one. -/
theorem AllLive.runs {G : Pass → Change → Prop} (h : p.AllLive) (hp : p.Sound)
    (hruns : Runs G p q) : q.AllLive := fun k hk => by
  have hin := hruns.nodesIn hp h fun _ hlive => hlive
  exact (hruns.isLive_eq k).trans (hin k hk)

theorem reconcile_leads (hp : p.Sound) :
    Leads F reconcile p fun _ q => Runs Reconciles p q ∧ q.AllLive := by
  refine leads_get ?_
  have hdead : ∀ k ∈ p.view.departedNodes, p.view.isLive k = false := fun k hk =>
    (mem_departedNodes_iff.mp hk).2
  -- every node that is no member is still to come, at first all departed ones
  have hstart : p.view.NodesIn fun k => p.view.isLive k = true ∨ k ∈ p.view.departedNodes := by
    intro k hk
    by_cases hlive : p.view.isLive k = true
    · exact .inl hlive
    · exact .inr (mem_departedNodes_iff.mpr ⟨hk, Bool.not_eq_true _ ▸ hlive⟩)
  refine (leads_forM (I := fun rest q => Runs Reconciles p q ∧
    (∀ k ∈ rest, p.view.isLive k = false) ∧
    q.view.NodesIn fun k => p.view.isLive k = true ∨ k ∈ rest) ⟨.refl, hdead, hstart⟩ ?_).mono ?_
  · rintro n rest q ⟨hruns, hrest, hin⟩
    have hsound := hruns.sound hp
    have hn : q.view.isLive n = false := (hruns.isLive_eq n).trans (hrest n List.mem_cons_self)
    refine (reconcileNode_leads hsound hn).mono ?_
    rintro - r ⟨hmore, hforgot⟩
    refine ⟨hruns.trans hmore, fun k hk => hrest k (List.mem_cons_of_mem n hk), fun k hk => ?_⟩
    have hkeep := hmore.nodesIn hsound hin fun k hk => .inl ((hruns.isLive_eq k).symm.trans hk)
    refine (hkeep k hk).imp id fun hmem => (List.mem_cons.mp hmem).resolve_left ?_
    rintro rfl
    rw [hforgot] at hk
    cases hk
  · rintro - q ⟨hruns, -, hin⟩
    refine ⟨hruns, fun k hk => (hruns.isLive_eq k).trans ?_⟩
    exact (hin k hk).resolve_right List.not_mem_nil

end Pass

end ShardAllocation
