/-
Two passes side by side.

Nothing that a pass does depends on what it has written down so far: the noted steps and the
history are only added to.  So two passes that differ in these at most stay side by side from
phase to phase, as long as the deciders of the one give the answers of the other.  They end with
the same fault, or both succeed.

How far the two may differ is left open.  They may have the same steps and other histories, when
their deciders give other reasons, or the same history and the same steps in another order.

* `Leeway` — how far two passes may differ in what they write and in what their deciders say;
* `Decider.Companions` — deciders that differ no further;
* `phases_lockstep` — under companions the phases of a pass are in lockstep, and the same
  commands are carried out;
* `afterStarted_lockstep` — so are the phases after the reports of completed recoveries;
* `Allocator.reroute_lockstep` — what the passes come to.
-/
import ShardAllocation.Proofs.Routing.Lockstep
import ShardAllocation.Reroute

namespace ShardAllocation

/-- How far two passes may differ: in what is written down, in the answers about nodes and in the
rejections of commands.  When both add the same step, or attempts with such answers, they differ
no further. -/
structure Leeway where
  written : List Transition → History → List Transition → History → Prop
  answer : NodeDecision → NodeDecision → Prop
  rejection : Rejection → Rejection → Prop
  noted : ∀ {ts h us k} (t : Transition), written ts h us k → written (ts ++ [t]) h (us ++ [t]) k
  recorded : ∀ {ts h us k ds es} (s : ShardId) (primary : Bool) (outcome : Decision),
    List.Forall₂ answer ds es → written ts h us k →
      written ts (h.record s ⟨primary, outcome, ds⟩) us (k.record s ⟨primary, outcome, es⟩)
  decision : ∀ {d e}, answer d e → e.decision = d.decision
  vetoed : ∀ {d e} (s : ShardId) (n : NodeId), answer d e →
    rejection (.vetoed s n d.reasons) (.vetoed s n e.reasons)
  refl : ∀ r, rejection r r

variable {Δ : Leeway} {α β γ δ : Type}

/-- The passes differ in what is written down at most, and no further than allowed. -/
def Pass.Abreast (Δ : Leeway) (p q : Pass) : Prop :=
  ∃ us k, q = { p with view := p.view.noting us, history := k } ∧
    Δ.written p.view.transitions p.history us k

/-- In passes side by side the deciders differ no further than allowed. -/
structure Decider.Companions (Δ : Leeway) (ds es : List Decider) : Prop where
  allocation : ∀ {p q : Pass}, p.Abreast Δ q → ∀ c node,
    Δ.answer (Decider.allocation ds c node p false) (Decider.allocation es c node q false)
  remaining : ∀ {p q : Pass}, p.Abreast Δ q → ∀ c node,
    (Decider.remaining es c node q false).decision = (Decider.remaining ds c node p false).decision
  shardRebalance : ∀ {p q : Pass}, p.Abreast Δ q → ∀ c,
    Decider.shardRebalance es c q = Decider.shardRebalance ds c p
  clusterRebalance : ∀ {p q : Pass}, p.Abreast Δ q →
    Decider.clusterRebalance es q = Decider.clusterRebalance ds p

/-- The placements are on the same node, or differ in the answers about the nodes. -/
def Placement.Matches (Δ : Leeway) : Placement → Placement → Prop
  | node n, node m => m = n
  | deferred ds, deferred es => List.Forall₂ Δ.answer ds es
  | refused ds, refused es => List.Forall₂ Δ.answer ds es
  | _, _ => False

/-- The checks give the same, or both reject. -/
def Rejection.Matches (Δ : Leeway) (x y : Except Rejection α) : Prop :=
  match x, y with
  | .ok a, .ok b => b = a
  | .error r, .error s => Δ.rejection r s
  | _, _ => False

/-- The outcomes are of the same command, which is carried out both times or not at all. -/
def CommandOutcome.Matches (Δ : Leeway) (o u : CommandOutcome) : Prop :=
  u.command = o.command ∧ Option.Rel Δ.rejection o.rejection u.rejection

namespace Pass

variable {p q : Pass} {ds es : List Decider}

/-- What is not written down is the same in both passes. -/
theorem Abreast.eq (h : p.Abreast Δ q) (f : Pass → α)
    (hf : ∀ (p : Pass) us k, f { p with view := p.view.noting us, history := k } = f p) :
    f q = f p := by
  obtain ⟨us, k, rfl, -⟩ := h
  exact hf p us k

/-- Both sides go on from what is not written down. -/
theorem lockstep_same {R : α → β → Prop} {f : Pass → Phase α} {g : Pass → Phase β}
    (hg : ∀ (p : Pass) us k, g { p with view := p.view.noting us, history := k } = g p)
    (h : ∀ p, Lockstep (Abreast Δ) R (f p) (g p)) :
    Lockstep (Abreast Δ) R (get >>= f) (get >>= g) :=
  lockstep_read (fun _ _ hpq => hpq.eq g hg) h

theorem lockstep_mutate {m : Mutation α} (h : Oblivious m) :
    Lockstep (Abreast Δ) Eq (mutate m) (mutate m) := by
  rintro p _ ⟨us, k, rfl, hw⟩
  have hrun := h (fun ts us => Δ.written ts p.history us k) (fun t _ _ => Δ.noted t) p.view
    (p.view.noting us) ⟨us, rfl, hw⟩
  unfold LockstepAt at hrun ⊢
  simp only [mutate]
  cases hx : m p.view with
  | ok a v =>
    cases hy : m (p.view.noting us) with
    | ok b w =>
      rw [hx, hy] at hrun
      obtain ⟨hab, later, rfl, hw⟩ := hrun
      exact ⟨hab, later, k, rfl, hw⟩
    | error d w =>
      rw [hx, hy] at hrun
      exact hrun
  | error e v =>
    cases hy : m (p.view.noting us) with
    | ok b w =>
      rw [hx, hy] at hrun
      exact hrun
    | error d w =>
      rw [hx, hy] at hrun
      exact hrun

theorem lockstep_record (s : ShardId) (primary : Bool) (outcome : Decision)
    {answers others : List NodeDecision} (h : List.Forall₂ Δ.answer answers others) :
    Lockstep (Abreast Δ) Eq (recordAttempt s ⟨primary, outcome, answers⟩)
      (recordAttempt s ⟨primary, outcome, others⟩) := by
  rintro p _ ⟨us, k, rfl, hw⟩
  exact ⟨rfl, us, _, rfl, Δ.recorded s primary outcome h hw⟩

/-! ### The phases before the commands, which ask no decider -/

theorem applyStarted_lockstep (r : StartedReport) :
    Lockstep (Abreast Δ) Eq (applyStarted r) (applyStarted r) := by
  refine lockstep_same (fun _ _ _ => rfl) fun p => ?_
  split
  · exact lockstep_mutate (View.start_oblivious _ _)
  · exact lockstep_pure rfl

theorem failRecoveringReplicas_lockstep (s : ShardId) (message : String) :
    Lockstep (Abreast Δ) Eq (failRecoveringReplicas s message)
      (failRecoveringReplicas s message) :=
  lockstep_same (fun _ _ _ => rfl) fun _ =>
    lockstep_forM (fun _ => lockstep_mutate (View.unassign_oblivious _ _ _)) _

theorem promoteReplica_lockstep (s : ShardId) : Lockstep (Abreast Δ) Eq
    (discard (mutate (View.promoteReplica s))) (discard (mutate (View.promoteReplica s))) :=
  (lockstep_mutate (View.promoteReplica_oblivious s)).discard

theorem applyFailed_lockstep (r : FailedReport) :
    Lockstep (Abreast Δ) Eq (applyFailed r) (applyFailed r) := by
  refine lockstep_same (fun _ _ _ => rfl) fun p => ?_
  split
  · exact lockstep_pure rfl
  split
  · exact lockstep_mutate (View.cancelRelocation_oblivious _ _)
  split
  · refine (failRecoveringReplicas_lockstep _ _).andThen ?_
    exact (lockstep_mutate (View.unassign_oblivious _ _ _)).andThen (promoteReplica_lockstep _)
  · exact (lockstep_mutate (View.unassign_oblivious _ _ _)).andThen (lockstep_pure rfl)

theorem loseCopy_lockstep (c : Copy) (n : NodeId) (reason : UnassignedReason)
    (message : String) :
    Lockstep (Abreast Δ) Eq (loseCopy c n reason message) (loseCopy c n reason message) := by
  refine lockstep_same (fun _ _ _ => rfl) fun p => ?_
  dsimp only
  split
  · exact lockstep_mutate (View.unassign_oblivious _ _ _)
  · refine (failRecoveringReplicas_lockstep _ _).andThen ?_
    refine lockstep_same (fun _ _ _ => rfl) fun q => ?_
    split
    · exact (lockstep_mutate (View.drop_oblivious _ _)).andThen (promoteReplica_lockstep _)
    · exact lockstep_mutate (View.unassign_oblivious _ _ _)

theorem reconcileTarget_lockstep (c : Copy) (n : NodeId) :
    Lockstep (Abreast Δ) Eq (reconcileTarget c n) (reconcileTarget c n) := by
  refine lockstep_same (fun _ _ _ => rfl) fun p => ?_
  split
  · exact lockstep_mutate (View.cancelRelocation_oblivious _ _)
  · split
    · exact loseCopy_lockstep _ _ _ _
    · exact lockstep_throw _

theorem reconcileCopy_lockstep (c : Copy) (n : NodeId) :
    Lockstep (Abreast Δ) Eq (reconcileCopy c n) (reconcileCopy c n) := by
  unfold reconcileCopy
  split
  · exact reconcileTarget_lockstep c n
  · split <;> exact loseCopy_lockstep _ _ _ _

theorem reconcileNode_lockstep (n : NodeId) :
    Lockstep (Abreast Δ) Eq (reconcileNode n) (reconcileNode n) := by
  refine lockstep_same (fun _ _ _ => rfl) fun p => ?_
  refine (lockstep_forM (fun s => lockstep_same (fun _ _ _ => rfl) fun q => ?_) _).andThen
    (lockstep_mutate (View.removeNode_oblivious n))
  split
  · exact reconcileCopy_lockstep _ n
  · exact lockstep_pure rfl

theorem reconcile_lockstep : Lockstep (Abreast Δ) Eq reconcile reconcile :=
  lockstep_same (fun _ _ _ => rfl) fun _ => lockstep_forM reconcileNode_lockstep _

/-! ### Commands -/

theorem matches_refl (x : Except Rejection α) : Rejection.Matches Δ x x := by
  cases x with
  | ok a => exact rfl
  | error r => exact Δ.refl r

theorem matches_bind {x y : Except Rejection α} {f g : α → Except Rejection β}
    (h : Rejection.Matches Δ x y) (hf : ∀ a, Rejection.Matches Δ (f a) (g a)) :
    Rejection.Matches Δ (x >>= f) (y >>= g) := by
  unfold Rejection.Matches at h
  split at h
  next a b =>
    obtain rfl := h
    exact hf b
  next => exact h
  next => exact h.elim

variable (h : Decider.Companions Δ ds es)

include h

theorem checkTarget_lockstep (hpq : p.Abreast Δ q) (c : Copy) (n : NodeId) :
    Rejection.Matches Δ (checkTarget ds p c n) (checkTarget es q c n) := by
  have hcopy : q.view.copyOn? = p.view.copyOn? :=
    hpq.eq (fun p => p.view.copyOn?) fun _ _ _ => rfl
  have hnode : q.view.node? = p.view.node? := hpq.eq (fun p => p.view.node?) fun _ _ _ => rfl
  simp only [checkTarget, hcopy, hnode]
  split
  · exact matches_refl _
  · cases p.view.node? n with
    | none => exact matches_refl _
    | some node =>
      have hanswer := h.allocation hpq c node
      simp only [Δ.decision hanswer]
      split
      · exact Δ.vetoed c.shard n hanswer
      · exact matches_refl _

theorem plan_lockstep (hpq : p.Abreast Δ q) (command : Command) :
    Rejection.Matches Δ (plan ds p command) (plan es q command) := by
  have htarget := checkTarget_lockstep h hpq
  obtain ⟨us, k, rfl, hw⟩ := hpq
  unfold plan
  dsimp only
  split
  · exact matches_refl _
  cases command with
  | move s source target =>
    refine matches_bind (matches_refl _) fun _ => matches_bind (matches_refl _) fun c => ?_
    split
    · exact matches_refl _
    · exact matches_bind (htarget c target) fun _ => matches_refl _
  | allocate s n allowPrimary =>
    refine matches_bind (matches_refl _) fun _ => matches_bind (matches_refl _) fun c => ?_
    exact matches_bind (htarget c n) fun _ => matches_refl _
  | cancel s n allowPrimary => exact matches_refl _

omit h in
theorem carryOut_lockstep (s : ShardId) (change : Plan) :
    Lockstep (Abreast Δ) Eq (carryOut s change) (carryOut s change) := by
  cases change with
  | relocate source target => exact lockstep_mutate (View.relocate_oblivious _ _ _)
  | place c n => exact lockstep_mutate (View.place_oblivious _ _)
  | cancelRelocation source => exact lockstep_mutate (View.cancelRelocation_oblivious _ _)
  | unassign n =>
    exact lockstep_same (fun _ _ _ => rfl) fun _ => lockstep_mutate (View.unassign_oblivious _ _ _)

theorem execute_lockstep (command : Command) :
    Lockstep (Abreast Δ) (CommandOutcome.Matches Δ) (execute ds command) (execute es command) := by
  refine lockstep_get fun p q hpq => ?_
  have hplan := plan_lockstep h hpq command
  revert hplan
  cases plan ds p command <;> cases plan es q command <;> intro hplan
  case error.error => exact lockstep_pure ⟨rfl, .some hplan⟩ p q hpq
  case ok.ok change other =>
    obtain rfl : other = change := hplan
    exact (carryOut_lockstep _ other).andThen (lockstep_pure ⟨rfl, .none⟩) p q hpq
  all_goals exact hplan.elim

theorem executeAll_lockstep (commands : List Command) :
    Lockstep (Abreast Δ) (List.Forall₂ (CommandOutcome.Matches Δ)) (executeAll ds commands)
      (executeAll es commands) := by
  induction commands with
  | nil => exact lockstep_pure .nil
  | cons command rest ih =>
    refine (execute_lockstep h command).bind fun o u hfirst => ih.bind fun os us hrest => ?_
    exact lockstep_pure (.cons hfirst hrest)

/-! ### Placement -/

omit h in
theorem any_decision_eq {answers others : List NodeDecision}
    (h : List.Forall₂ Δ.answer answers others) (test : Decision → Bool) :
    others.any (fun d => test d.decision) = answers.any fun d => test d.decision := by
  induction h with
  | nil => rfl
  | cons hanswer _ ih => rw [List.any_cons, List.any_cons, Δ.decision hanswer, ih]

theorem findNode_lockstep (hpq : p.Abreast Δ q) (c : Copy) (excluded : Option NodeId) :
    Placement.Matches Δ (findNode ds c excluded p) (findNode es c excluded q) := by
  have htry : ∀ (nodes : List DataNode) (seen other : List NodeDecision),
      List.Forall₂ Δ.answer seen other →
        Placement.Matches Δ (tryNodes ds c p seen nodes) (tryNodes es c q other nodes) := by
    intro nodes
    induction nodes with
    | nil =>
      intro seen other hseen
      simp only [tryNodes, any_decision_eq hseen (· == .throttle)]
      split <;> exact hseen
    | cons node rest ih =>
      intro seen other hseen
      have hanswer := h.allocation hpq c node
      simp only [tryNodes, Δ.decision hanswer]
      split
      · exact rfl
      · exact ih _ _ (List.rel_append hseen (.cons hanswer .nil))
  have hcandidates : candidates q.view = candidates p.view :=
    hpq.eq (fun p => candidates p.view) fun _ _ _ => rfl
  rw [findNode, findNode, hcandidates]
  exact htry _ [] [] .nil

theorem allocateCopy_lockstep (c : Copy) :
    Lockstep (Abreast Δ) Eq (allocateCopy ds c) (allocateCopy es c) := by
  unfold allocateCopy
  split
  · refine lockstep_get fun p q hpq => ?_
    have hfound := findNode_lockstep h hpq c none
    revert hfound
    cases findNode ds c none p <;> cases findNode es c none q <;> intro hfound
    case node.node n other =>
      obtain rfl : other = n := hfound
      exact lockstep_mutate (View.place_oblivious _ _) p q hpq
    case deferred.deferred => exact lockstep_record _ _ _ hfound p q hpq
    case refused.refused => exact lockstep_record _ _ _ hfound p q hpq
    all_goals exact hfound.elim
  · exact lockstep_pure rfl

theorem allocateUnassigned_lockstep :
    Lockstep (Abreast Δ) Eq (allocateUnassigned ds) (allocateUnassigned es) :=
  lockstep_same (fun _ _ _ => rfl) fun _ => lockstep_forM (allocateCopy_lockstep h) _

theorem replenishShard_lockstep (s : ShardId) (missing : Nat) :
    Lockstep (Abreast Δ) Eq (replenishShard ds s missing) (replenishShard es s missing) := by
  induction missing with
  | zero => exact lockstep_pure rfl
  | succ missing ih =>
    refine lockstep_get fun p q hpq => ?_
    have hinfo : q.unassignedInfo .replicaAdded none = p.unassignedInfo .replicaAdded none :=
      hpq.eq (fun p => p.unassignedInfo .replicaAdded none) fun _ _ _ => rfl
    dsimp only
    rw [hinfo]
    generalize Copy.newUnassigned s false _ = replica
    have hfound := findNode_lockstep h hpq replica none
    revert hfound
    cases findNode ds replica none p <;> cases findNode es replica none q <;> intro hfound
    case node.node n other =>
      obtain rfl : other = n := hfound
      exact (lockstep_mutate (View.addUnassigned_oblivious _)).andThen
        ((lockstep_mutate (View.place_oblivious _ _)).andThen ih) p q hpq
    case deferred.deferred => exact lockstep_pure rfl p q hpq
    case refused.refused => exact lockstep_pure rfl p q hpq
    all_goals exact hfound.elim

theorem replenishReplicas_lockstep :
    Lockstep (Abreast Δ) Eq (replenishReplicas ds) (replenishReplicas es) := by
  refine lockstep_same (fun _ _ _ => rfl) fun p => lockstep_forM (fun m => ?_) _
  refine lockstep_forM (fun s => lockstep_same (fun _ _ _ => rfl) fun q => ?_) _
  exact replenishShard_lockstep h s _

theorem moveCopy_lockstep (n : NodeId) (c : Copy) :
    Lockstep (Abreast Δ) Eq (moveCopy ds n c) (moveCopy es n c) := by
  refine lockstep_get fun p q hpq => ?_
  have hnode : q.view.node? n = p.view.node? n :=
    hpq.eq (fun p => p.view.node? n) fun _ _ _ => rfl
  have hfound := findNode_lockstep h hpq c (some n)
  rw [hnode]
  cases p.view.node? n with
  | none => exact lockstep_pure rfl p q hpq
  | some node =>
    simp only [h.remaining hpq]
    split
    · revert hfound
      cases findNode ds c (some n) p <;> cases findNode es c (some n) q <;> intro hfound
      case node.node k other =>
        obtain rfl : other = k := hfound
        exact lockstep_mutate (View.relocate_oblivious _ _ _) p q hpq
      case deferred.deferred => exact lockstep_pure rfl p q hpq
      case refused.refused => exact lockstep_pure rfl p q hpq
      all_goals exact hfound.elim
    · exact lockstep_pure rfl p q hpq

theorem moveShards_lockstep : Lockstep (Abreast Δ) Eq (moveShards ds) (moveShards es) := by
  refine lockstep_same (fun _ _ _ => rfl) fun p => lockstep_forM (fun n => ?_) _
  exact lockstep_same (fun _ _ _ => rfl) fun q => lockstep_forM (moveCopy_lockstep h n) _

/-! ### Balance -/

theorem nextMove?_lockstep (hpq : p.Abreast Δ q) : nextMove? es q = nextMove? ds p := by
  have hmovable : ∀ source target, movableCopy? es q source target =
      movableCopy? ds p source target := by
    intro source target
    simp only [movableCopy?, h.shardRebalance hpq, Δ.decision (h.allocation hpq _ _)]
  have hweights : byWeight q.view = byWeight p.view :=
    hpq.eq (fun p => byWeight p.view) fun _ _ _ => rfl
  have hspread : q.exceedsSpread = p.exceedsSpread :=
    hpq.eq (fun p => p.exceedsSpread) fun _ _ _ => rfl
  simp only [nextMove?, hmovable, hweights, hspread]

theorem rebalanceUpTo_lockstep (moves : Nat) :
    Lockstep (Abreast Δ) Eq (rebalanceUpTo ds moves) (rebalanceUpTo es moves) := by
  induction moves with
  | zero => exact lockstep_pure rfl
  | succ moves ih =>
    refine lockstep_get fun p q hpq => ?_
    simp only [h.clusterRebalance hpq, nextMove?_lockstep h hpq]
    split
    · cases nextMove? ds p with
      | none => exact lockstep_pure rfl p q hpq
      | some m =>
        exact (lockstep_mutate (View.relocate_oblivious _ _ _)).andThen ih p q hpq
    · exact lockstep_pure rfl p q hpq

theorem rebalance_lockstep : Lockstep (Abreast Δ) Eq (rebalance ds) (rebalance es) :=
  lockstep_same (fun _ _ _ => rfl) fun _ => rebalanceUpTo_lockstep h _

/-! ### A whole pass -/

/-- The phases after the reports of completed recoveries. -/
theorem afterStarted_lockstep (t : Trigger) :
    Lockstep (Abreast Δ) (List.Forall₂ (CommandOutcome.Matches Δ))
      (Allocator.phases ds { t with started := [] })
      (Allocator.phases es { t with started := [] }) := by
  refine (lockstep_pure rfl).andThen ?_
  refine (lockstep_forM applyFailed_lockstep _).andThen (reconcile_lockstep.andThen ?_)
  refine (executeAll_lockstep h t.commands).bind fun os us hos => ?_
  refine (allocateUnassigned_lockstep h).andThen ((replenishReplicas_lockstep h).andThen ?_)
  exact (moveShards_lockstep h).andThen ((rebalance_lockstep h).andThen (lockstep_pure hos))

theorem phases_lockstep (t : Trigger) :
    Lockstep (Abreast Δ) (List.Forall₂ (CommandOutcome.Matches Δ)) (Allocator.phases ds t)
      (Allocator.phases es t) :=
  (lockstep_forM applyStarted_lockstep _).andThen (afterStarted_lockstep h t)

end Pass

/-- Passes whose phases are in lockstep end with the same fault, or with results of passes side by
side. -/
theorem Allocator.reroute_lockstep {settings : Settings} {ds es : List Decider} {s : ClusterState}
    {t u : Trigger} (htime : u.time = t.time)
    (h : ∀ p, Pass.begin s settings t.time = .ok p → LockstepAt (Pass.Abreast Δ)
      (List.Forall₂ (CommandOutcome.Matches Δ)) p p (phases ds t) (phases es u)) :
    (∃ e, Allocator.reroute ⟨settings, ds⟩ s t = .error e ∧
      Allocator.reroute ⟨settings, es⟩ s u = .error e) ∨
    ∃ p q os us, p.Abreast Δ q ∧ List.Forall₂ (CommandOutcome.Matches Δ) os us ∧
      Allocator.reroute ⟨settings, ds⟩ s t = .ok (conclude p os) ∧
      Allocator.reroute ⟨settings, es⟩ s u = .ok (conclude q us) := by
  simp only [reroute, bind, Except.bind, EStateM.run, htime]
  cases settings.validate with
  | error e => exact .inl ⟨e, rfl, rfl⟩
  | ok =>
    cases hbegin : Pass.begin s settings t.time with
    | error e => exact .inl ⟨e, rfl, rfl⟩
    | ok p =>
      have hp := h p hbegin
      unfold LockstepAt at hp
      dsimp only
      generalize phases ds t = x at hp ⊢
      generalize phases es u = y at hp ⊢
      cases hx : x p <;> cases hy : y p <;> simp only [hx, hy] at hp ⊢
      case error.error => exact .inl ⟨_, rfl, hp ▸ rfl⟩
      case ok.ok os q us r =>
        obtain ⟨hos, later, k, rfl, hw⟩ := hp
        have hvalid : (q.view.noting later).validate s.metadata = q.view.validate s.metadata := rfl
        rw [hvalid]
        cases q.view.validate s.metadata with
        | error e => exact .inl ⟨e, rfl, rfl⟩
        | ok =>
          exact .inr ⟨{ q with state := s },
            { q with state := s, view := q.view.noting later, history := k }, os, us,
            ⟨later, k, rfl, hw⟩, hos, rfl, rfl⟩

end ShardAllocation
