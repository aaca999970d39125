/-
The phases that take in reports, as runs of changes.

Neither of them ends with a fault, whatever the reports say.

* `applyStarted_leads` — a report of a completed recovery is one change or none;
* `forM_applyStarted_leads` — afterwards no copy initializes that was reported;
* `failRecoveringReplicas_leads` — afterwards no replica of the shard is being filled, and
  all its other copies are where they were;
* `applyFailed_leads` — a failed copy is called back, released or surrendered.
-/
import ShardAllocation.Proofs.Pass.Leads

namespace ShardAllocation

namespace View

variable {v : View} {s : ShardId} {n : NodeId} {c : Copy}

theorem isRecoveringReplica_iff :
    isRecoveringReplica c = true ↔
      c.primary = false ∧ c.state = .initializing ∧ c.isRelocationTarget = false := by
  simp only [isRecoveringReplica, Copy.isInitializing, Bool.and_eq_true, Bool.not_eq_true',
    beq_iff_eq, and_assoc]

/-- A replica that is being filled has no data yet. -/
theorem isActive_of_recovering (h : isRecoveringReplica c = true) : c.isActive = false := by
  obtain ⟨-, hinit, -⟩ := isRecoveringReplica_iff.mp h
  simp [Copy.isActive, Copy.isStarted, Copy.isRelocating, hinit]

/-- It does not move, either. -/
theorem peer_of_recovering (h : isRecoveringReplica c = true) : c.peer = none := by
  obtain ⟨-, hinit, ht⟩ := isRecoveringReplica_iff.mp h
  simpa [Copy.isRelocationTarget, Copy.isInitializing, hinit] using ht

theorem not_recovering_of_active (h : c.isActive = true) : isRecoveringReplica c = false := by
  by_contra hrec
  rw [isActive_of_recovering (Bool.not_eq_false _ ▸ hrec)] at h
  cases h

theorem not_recovering_of_primary (h : c.primary = true) : isRecoveringReplica c = false := by
  simp [isRecoveringReplica, h]

/-- A list of names that each map to themselves or to nothing keeps its order. -/
theorem filterMap_sublist_of_eq {α : Type} {f : α → Option α} (hf : ∀ a b, f a = some b → b = a)
    (l : List α) : (l.filterMap f).Sublist l := by
  induction l with
  | nil => exact .refl _
  | cons a rest ih =>
    cases hfa : f a with
    | none =>
      rw [List.filterMap_cons_none hfa]
      exact ih.cons a
    | some b =>
      obtain rfl := hf a b hfa
      rw [List.filterMap_cons_some hfa]
      exact ih.cons_cons b

/-- No node occurs twice among those of some copies of a shard. -/
theorem nodup_nodes (h : v.Consistent) (s : ShardId) (p : Copy → Bool) :
    (((v.copies s).filter p).filterMap (·.node)).Nodup := by
  have hnodes : ((v.copies s).filterMap (·.node)).Sublist (v.holdersOf s).keys := by
    rw [copies_eq, List.filterMap_filterMap]
    refine filterMap_sublist_of_eq (fun n k hk => ?_) _
    obtain ⟨c, hc, hnode⟩ := Option.bind_eq_some_iff.mp hk
    rw [(h.own hc).2, Option.some_inj] at hnode
    exact hnode.symm
  exact ((List.filter_sublist.filterMap _).trans hnodes).nodup (SortedMap.nodup_keys _)

theorem mem_nodes_iff (h : v.Consistent) (p : Copy → Bool) :
    n ∈ ((v.copies s).filter p).filterMap (·.node) ↔ ∃ c, v.copyOn? s n = some c ∧ p c = true := by
  simp only [List.mem_filterMap, List.mem_filter, mem_copies_iff h.indexed]
  constructor
  · rintro ⟨c, ⟨⟨k, hk⟩, hp⟩, hnode⟩
    rw [(h.own hk).2, Option.some_inj] at hnode
    exact ⟨c, hnode ▸ hk, hp⟩
  · rintro ⟨c, hc, hp⟩
    exact ⟨c, ⟨⟨n, hc⟩, hp⟩, (h.own hc).2⟩

/-- Once its primary slot waits, no copy of a shard is the primary. -/
theorem Sound.primary?_release {m : Metadata} (h : v.Sound m)
    (hc : v.copyOn? c.shard n = some c) (hprim : c.primary = true) (info : UnassignedInfo) :
    (v.release n c info).primary? c.shard = none := by
  have hreleased : (v.release n c info).Sound m := h.release hc
  have hwait : 0 < (v.release n c info).waitingCount c.shard id :=
    waitingCount_release_pos hprim
  have hone := hreleased.primaries c.shard (h.knows_of_copyOn? hc)
  rw [roleCount] at hone
  exact primary?_eq_none (by omega)

end View

namespace Pass

variable {F : Prop} {p q r : Pass} {P : Policy} {G : Pass → Change → Prop} {s : ShardId}

/-! ### Completed recoveries -/

theorem applyStarted_leads (hp : p.Sound) {r : StartedReport} (hr : r ∈ P.trigger.started) :
    Leads F (applyStarted r) p fun _ q => Runs P.Completes p q ∧
      (q.view.copyOn? r.shard r.node).any (·.isInitializing) = false := by
  refine leads_get ?_
  split
  next hinit =>
    cases hc : p.view.copyOn? r.shard r.node with
    | none =>
      rw [hc] at hinit
      cases hinit
    | some c =>
      rw [hc] at hinit
      obtain ⟨hshard, -⟩ := hp.view.consistent.own hc
      have hstate : c.state = .initializing := by
        simpa [Copy.isInitializing] using hinit
      have hrun := View.start_eq hp.view.consistent hc hstate
      rw [← hshard] at hc hrun ⊢
      have hreported : P.Completes p (.start c r.node) := by
        show (⟨c.shard, r.node⟩ : StartedReport) ∈ P.trigger.started
        rw [hshard]
        exact hr
      refine (leads_change (.start c r.node) .refl hrun rfl ⟨hc, hstate⟩ hreported).mono ?_
      rintro - q ⟨hq, rfl⟩
      have hthere := congrFun (View.layout_settle p.view r.node c) r.node
      rw [Layout.settle, if_pos rfl] at hthere
      exact ⟨hq, congrArg (Option.any (·.isInitializing)) hthere⟩
  next hidle => exact leads_pure ⟨.refl, Bool.not_eq_true _ ▸ hidle⟩

/-- Completed recoveries bring in no copy that initializes. -/
theorem Runs.idle_of_completes (h : Runs P.Completes p q) {n : NodeId}
    (hidle : (p.view.copyOn? s n).any (·.isInitializing) = false) :
    (q.view.copyOn? s n).any (·.isInitializing) = false := by
  refine h.invariant (I := fun r => (r.view.copyOn? s n).any (·.isInitializing) = false) hidle ?_
  intro r ch hidle hfit hguard
  cases ch with
  | start c k =>
    show ((r.view.settle k c).copyOn? s n).any _ = false
    by_cases hs : s = c.shard
    · rw [hs, View.layout_settle, Layout.settle]
      rw [hs] at hidle
      split
      · rfl
      · split
        · rfl
        · exact hidle
    · rw [View.copyOn?_settle_of_ne hs]
      exact hidle
  | _ => exact hguard.elim

/-- Once all reports are taken in, no copy that they name initializes. -/
theorem forM_applyStarted_leads (P : Policy) (hp : p.Sound) :
    Leads F (P.trigger.started.forM applyStarted) p fun _ q => Runs P.Completes p q ∧
      ∀ r ∈ P.trigger.started, (q.view.copyOn? r.shard r.node).any (·.isInitializing) = false := by
  refine leads_forM_each (I := fun q => Runs P.Completes p q)
    (D := fun (r : StartedReport) q =>
      (q.view.copyOn? r.shard r.node).any (·.isInitializing) = false) .refl ?_
  intro r hr q hq
  refine (applyStarted_leads (hq.sound hp) hr).mono ?_
  rintro - k ⟨hk, hidle⟩
  exact ⟨hq.trans hk, hidle, fun _ _ hbefore => hk.idle_of_completes hbefore⟩

/-! ### Replicas that are being filled -/

/-- A replica that is being filled may always leave its node. -/
theorem Policy.clears_of_isRecoveringReplica (P : Policy) {c : Copy} {n : NodeId}
    {info : UnassignedInfo} (h : View.isRecoveringReplica c = true) :
    P.Clears p (.release c n info) :=
  ⟨.inl (View.isActive_of_recovering h), trivial⟩

/-- What the loop over the replicas that are being filled keeps: these are the ones on the
nodes that are left, and all other copies of the shard are where they were. -/
structure FailsRecovering (G : Pass → Change → Prop) (s : ShardId) (p : Pass)
    (nodes : List NodeId) (q : Pass) : Prop where
  runs : Runs (About s G) p q
  nodup : nodes.Nodup
  recovering : ∀ n ∈ nodes, ∃ c, q.view.copyOn? s n = some c ∧ View.isRecoveringReplica c = true
  left : ∀ n c, q.view.copyOn? s n = some c → View.isRecoveringReplica c = true → n ∈ nodes
  kept : ∀ n c, View.isRecoveringReplica c = false →
    (q.view.copyOn? s n = some c ↔ p.view.copyOn? s n = some c)

/-- A replica that is being filled is released: it has no move, so only its own node is
vacated. -/
theorem FailsRecovering.release {rest : List NodeId} {n : NodeId} {c : Copy}
    {info : UnassignedInfo} (hq : FailsRecovering G c.shard p (n :: rest) q)
    (hc : q.view.copyOn? c.shard n = some c) (hpeer : c.peer = none)
    (hrec : View.isRecoveringReplica c = true)
    (hruns : Runs (About c.shard G) p ((Change.release c n info).apply q)) :
    FailsRecovering G c.shard p rest ((Change.release c n info).apply q) := by
  have hlayout : ∀ k, ((Change.release c n info).apply q).view.copyOn? c.shard k =
      if k = n then none else q.view.copyOn? c.shard k := fun k => by
    have hvacate := congrFun (View.layout_vacate q.view n c) k
    refine hvacate.trans ?_
    simp [Layout.vacate, hpeer]
  obtain ⟨hn, hnodup⟩ := List.nodup_cons.mp hq.nodup
  constructor
  case runs => exact hruns
  case nodup => exact hnodup
  case recovering =>
    intro k hk
    have hkn : k ≠ n := fun heq => hn (heq ▸ hk)
    obtain ⟨d, hd, hdrec⟩ := hq.recovering k (List.mem_cons_of_mem n hk)
    exact ⟨d, (hlayout k).trans (by rw [if_neg hkn, hd]), hdrec⟩
  case left =>
    intro k d hd hdrec
    rw [hlayout k] at hd
    split at hd
    next => cases hd
    next hkn => exact (List.mem_cons.mp (hq.left k d hd hdrec)).resolve_left hkn
  case kept =>
    intro k d hdrec
    rw [hlayout k, ← hq.kept k d hdrec]
    split
    next hkn =>
      -- what was on `n` was being filled
      subst hkn
      refine ⟨(fun h => by cases h), fun h => ?_⟩
      rw [hc, Option.some_inj] at h
      rw [← h, hrec] at hdrec
      cases hdrec
    next => exact Iff.rfl

/-- The guard has to admit the release of a replica that is being filled, whatever became of
the other ones. -/
theorem failRecoveringReplicas_leads (hp : p.Sound) (s : ShardId) (message : String)
    (hG : ∀ q c n, Runs (About s G) p q →
      (∀ n c, View.isRecoveringReplica c = false →
        (q.view.copyOn? s n = some c ↔ p.view.copyOn? s n = some c)) →
      c.shard = s → View.isRecoveringReplica c = true →
      G q (.release c n (p.unassignedInfo .primaryFailed (some message)))) :
    Leads F (failRecoveringReplicas s message) p fun _ q =>
      Runs (About s G) p q ∧ NoRecovering q.view s ∧
        ∀ n c, View.isRecoveringReplica c = false →
          (q.view.copyOn? s n = some c ↔ p.view.copyOn? s n = some c) := by
  have hv := hp.view.consistent
  refine leads_get ?_
  have hstart : FailsRecovering G s p
      (((p.view.copies s).filter View.isRecoveringReplica).filterMap (·.node)) p :=
    ⟨.refl, View.nodup_nodes hv s _, fun n hn => (View.mem_nodes_iff hv _).mp hn,
      fun n c hc hrec => (View.mem_nodes_iff hv _).mpr ⟨c, hc, hrec⟩, fun _ _ _ => Iff.rfl⟩
  refine (leads_forM (I := FailsRecovering G s p) hstart ?_).mono ?_
  · intro n rest q hq
    have hsound := hq.runs.sound hp
    obtain ⟨c, hc, hrec⟩ := hq.recovering n List.mem_cons_self
    obtain ⟨-, -, htarget⟩ := View.isRecoveringReplica_iff.mp hrec
    obtain ⟨rfl, -⟩ := hsound.view.consistent.own hc
    have hrun := View.unassign_eq hsound.view.consistent hc htarget
      (p.unassignedInfo .primaryFailed (some message))
    refine (leads_change (G := About c.shard G)
      (.release c n (p.unassignedInfo .primaryFailed (some message))) hq.runs hrun rfl
      ⟨hc, htarget⟩ ⟨hG q c n hq.runs hq.kept rfl hrec, rfl⟩).mono ?_
    rintro - r ⟨hruns, rfl⟩
    exact hq.release hc (View.peer_of_recovering hrec) hrec hruns
  · rintro - q hq
    refine ⟨hq.runs, fun n c hc => ?_, hq.kept⟩
    by_contra hrec
    exact absurd (hq.left n c hc (Bool.not_eq_false _ ▸ hrec)) List.not_mem_nil

/-! ### Failed copies -/

/-- A primary that leaves its node surrenders: the two mutations make one change. -/
theorem surrender_eq_leads (hp : p.Sound) {c : Copy} {n : NodeId} {info : UnassignedInfo}
    (hc : p.view.copyOn? c.shard n = some c) (ht : c.isRelocationTarget = false)
    (hprim : c.primary = true) :
    Leads F (mutate (View.unassign c.shard n info) >>= fun _ =>
      discard (mutate (View.promoteReplica c.shard))) p fun _ q =>
        q = (Change.surrender c n info).apply p := by
  have hreleased : (p.view.release n c info).Sound p.state.metadata := hp.view.release hc
  obtain ⟨o, hpromote⟩ := View.promoteReplica_run hreleased.consistent
    (hp.view.primary?_release hc hprim info)
  refine (leads_mutate (Q := fun _ q => q = { p with view := p.view.release n c info })
    (View.unassign_eq hp.view.consistent hc ht info) rfl).bind ?_
  rintro - q rfl
  have hsecond : Leads F (mutate (View.promoteReplica c.shard))
      { p with view := p.view.release n c info } fun _ q =>
        q = (Change.surrender c n info).apply p := leads_mutate hpromote rfl
  refine (leads_discard hsecond).mono ?_
  rintro - q ⟨-, hq⟩
  exact hq

theorem surrender_leads (hp : p.Sound) {c : Copy} {n : NodeId} {info : UnassignedInfo}
    (hc : p.view.copyOn? c.shard n = some c) (ht : c.isRelocationTarget = false)
    (hprim : c.primary = true) (hreported : P.Reported c.shard)
    (hrec : NoRecovering p.view c.shard) {p₀ : Pass} (hruns : Runs P.Clears p₀ p) :
    Leads F (mutate (View.unassign c.shard n info) >>= fun _ =>
      discard (mutate (View.promoteReplica c.shard))) p fun _ q => Runs P.Clears p₀ q := by
  refine (surrender_eq_leads hp hc ht hprim).mono ?_
  rintro - q rfl
  exact hruns.step ⟨hc, ht, hprim⟩ ⟨⟨hreported, hrec⟩, trivial⟩

theorem applyFailed_leads (hp : p.Sound) {r : FailedReport} (hr : r ∈ P.trigger.failed) :
    Leads F (applyFailed r) p fun _ q => Runs P.Clears p q := by
  have hv := hp.view.consistent
  refine leads_get ?_
  cases hc : p.view.copyOn? r.shard r.node with
  | none =>
    -- a report about a copy that is no longer there
    exact leads_pure .refl
  | some c =>
    obtain ⟨hshard, hnode⟩ := hv.own hc
    have hreported : P.Reported c.shard := ⟨r, hr, hshard.symm⟩
    rw [← hshard] at hc ⊢
    simp only
    by_cases ht : c.isRelocationTarget = true
    · -- the target of a move fails, and the move is called back at its source
      obtain ⟨hinit, hsome⟩ := Copy.isRelocationTarget_iff.mp ht
      obtain ⟨k, hpeer⟩ := Option.isSome_iff_exists.mp hsome
      rw [if_pos ht, hpeer, Option.getD_some]
      exact (recall_leads (G := P.Clears) hp hc hinit hpeer fun _ _ _ => ⟨trivial, trivial⟩).mono
        fun _ q hq => hq.1
    · have ht : c.isRelocationTarget = false := Bool.not_eq_true _ ▸ ht
      simp only [ht, Bool.false_eq_true, if_false]
      by_cases hprim : c.primary = true
      · -- nothing is filled from a primary that failed any more
        simp only [hprim, if_true]
        refine (failRecoveringReplicas_leads (G := P.Clears) hp c.shard _
          fun _ _ _ _ _ _ hrec => P.clears_of_isRecoveringReplica hrec).bind ?_
        rintro - q ⟨hruns, hrec, hkept⟩
        have hstill : q.view.copyOn? c.shard r.node = some c :=
          (hkept r.node c (View.not_recovering_of_primary hprim)).mpr hc
        exact surrender_leads (hruns.sound hp) hstill ht hprim hreported hrec hruns.of_about
      · have hreplica : c.primary = false := Bool.not_eq_true _ ▸ hprim
        simp only [hreplica, Bool.false_eq_true, if_false]
        have hrun := View.unassign_eq hv hc ht (p.unassignedInfo .allocationFailed (some r.reason))
        refine Leads.bind (leads_change (G := P.Clears)
          (.release c r.node (p.unassignedInfo .allocationFailed (some r.reason))) .refl hrun
          rfl ⟨hc, ht⟩ ⟨.inr (.inl ⟨hreplica, .inl hreported⟩), trivial⟩) ?_
        rintro - q ⟨hruns, -⟩
        exact leads_pure hruns

end Pass

end ShardAllocation
