/-
The order of the deciders.

Deciders are asked in order and nobody is asked after the first no, so in another order other
deciders are heard.  The reasons that are recorded may then be others, and so may the wording of
a rejection.  The answer itself is the worst of all answers in any order, so the copies go where
they went before.

* `Decider.companions_of_perm` — the standard deciders may be asked in any order;
* `RerouteResult.routing` — what a pass did, without the reasons;
* `reroute_perm` — it does not depend on the order of the deciders.
-/
import ShardAllocation.Proofs.Cluster.Run
import ShardAllocation.Proofs.Pass.Alike
import ShardAllocation.Proofs.Pass.Lockstep

namespace ShardAllocation

/-- What becomes of a command, without the reasons. -/
def CommandOutcome.answer (o : CommandOutcome) : Command × Bool := (o.command, o.isApplied)

/-- The same steps are noted, and the answers are the same without the reasons. -/
def Leeway.reasons : Leeway where
  written ts _ us _ := us = ts
  answer d e := e.decision = d.decision
  rejection _ _ := True
  noted t h := congrArg (· ++ [t]) h
  recorded _ _ _ _ h := h
  decision h := h
  vetoed _ _ _ := trivial
  refl _ := trivial

/-! ### The answers in another order -/

namespace Decider

variable {ds es : List Decider}

theorem worstOf_perm {l k : List Verdict} (h : l.Perm k) : worstOf k = worstOf l := by
  refine (h.foldl_eq' (fun v _ w _ d => ?_) Decision.yes).symm
  rw [Decision.worst_assoc, Decision.worst_comm v.decision, ← Decision.worst_assoc]

/-- The worst of the verdicts does not change when the deciders give the same ones in another
order. -/
theorem worstOf_map_perm {f g : Decider → Verdict} (h : ds.Perm es)
    (hsame : ∀ d ∈ ds, g d = f d) : worstOf (es.map g) = worstOf (ds.map f) := by
  rw [worstOf_perm (h.map g), List.map_congr_left hsame]

/-- The standard deciders may be asked in any order. -/
theorem companions_of_perm (hds : ds ⊆ standard) (h : ds.Perm es) : Companions .reasons ds es := by
  have halike : ∀ {p q : Pass}, p.Abreast .reasons q → p.Alike q := by
    rintro p _ ⟨us, k, rfl, -⟩
    exact ⟨rfl, rfl, rfl, .refl _, rfl, rfl, rfl⟩
  constructor
  case allocation =>
    intro p q hpq c node
    show (Decider.allocation es c node q false).decision = _
    rw [Decider.allocation, Decider.allocation, decision_combine, decision_combine]
    exact worstOf_map_perm h fun d hd => ((halike hpq).verdicts_eq (hds hd) c).1 node
  case remaining =>
    intro p q hpq c node
    rw [Decider.remaining, Decider.remaining, decision_combine, decision_combine]
    exact worstOf_map_perm h fun d hd => ((halike hpq).verdicts_eq (hds hd) c).2.1 node
  case shardRebalance =>
    intro p q hpq c
    exact worstOf_map_perm h fun d hd => ((halike hpq).verdicts_eq (hds hd) c).2.2
  case clusterRebalance =>
    intro p q hpq
    exact worstOf_map_perm h fun d hd => (halike hpq).canRebalanceCluster_eq (hds hd)

end Decider

/-! ### Passes in another order -/

/-- What a pass did: the routing table that it leaves, its transitions, and which commands it
carried out.  The reasons are left out. -/
def RerouteResult.routing (r : RerouteResult) :
    RoutingTable × List Transition × List (Command × Bool) :=
  (r.state.table, r.transitions, r.outcomes.map CommandOutcome.answer)

theorem routing_conclude (p : Pass) (outcomes : List CommandOutcome) :
    (Allocator.conclude p outcomes).routing =
      (p.view.freeze p.state.metadata, p.view.transitions,
        outcomes.map CommandOutcome.answer) := by
  unfold Allocator.conclude
  dsimp only
  split
  next => rfl
  next hsame =>
    obtain ⟨htable, -⟩ := not_or.mp hsame
    rw [not_not.mp htable]
    rfl

theorem answers_eq {os us : List CommandOutcome}
    (h : List.Forall₂ (CommandOutcome.Matches .reasons) os us) :
    us.map CommandOutcome.answer = os.map CommandOutcome.answer := by
  induction h with
  | nil => rfl
  | @cons o u os us hfirst _ ih =>
    obtain ⟨command, rejection⟩ := o
    obtain ⟨_, other⟩ := u
    obtain ⟨rfl, hrejection⟩ := hfirst
    rw [List.map_cons, List.map_cons, ih]
    cases hrejection <;> rfl

namespace Allocator

/-- Companions make the same of a snapshot: both passes end with the same fault, or they leave the
same routing table, note the same transitions and carry out the same commands. -/
theorem routing_reroute {ds es : List Decider} (h : Decider.Companions .reasons ds es)
    (settings : Settings) (s : ClusterState) (t : Trigger) :
    (Allocator.reroute ⟨settings, es⟩ s t).map RerouteResult.routing =
      (Allocator.reroute ⟨settings, ds⟩ s t).map RerouteResult.routing := by
  have hphases : ∀ p, Pass.begin s settings t.time = .ok p → LockstepAt (Pass.Abreast .reasons)
      (List.Forall₂ (CommandOutcome.Matches .reasons)) p p (phases ds t) (phases es t) :=
    fun p _ => Pass.phases_lockstep h t p p ⟨_, _, rfl, rfl⟩
  rcases reroute_lockstep rfl hphases with
    ⟨e, hr, hu⟩ | ⟨p, _, os, us, ⟨_, k, rfl, rfl⟩, hos, hr, hu⟩
  · rw [hr, hu]
  · rw [hr, hu, Except.map, Except.map, routing_conclude, routing_conclude, answers_eq hos]
    rfl

end Allocator

/-- The order of the deciders does not change where copies go, nor which commands are carried
out. -/
theorem reroute_perm {ds es : List Decider} (hds : ds ⊆ Decider.standard) (h : ds.Perm es)
    (settings : Settings) (s : ClusterState) (t : Trigger) :
    (Allocator.reroute ⟨settings, es⟩ s t).map RerouteResult.routing =
      (Allocator.reroute ⟨settings, ds⟩ s t).map RerouteResult.routing :=
  Allocator.routing_reroute (Decider.companions_of_perm hds h) settings s t

/-- An operator places the primary, then asks in vain for the replica. -/
def premature : Trigger where
  reason := "commands"
  time := ⟨0, 0⟩
  commands := [.allocate ⟨"x", 0⟩ "a" true, .allocate ⟨"x", 0⟩ "b" false]

/-- Asked the other way round, the deciders veto the same command and record other reasons why
the replica waits. -/
theorem reroute_perm_reverse :
    ∃ r u, Allocator.reroute ⟨{}, Decider.standard⟩ createdCluster premature = .ok r ∧
      Allocator.reroute ⟨{}, Decider.standard.reverse⟩ createdCluster premature = .ok u ∧
      r.outcomes.map CommandOutcome.isApplied = [true, false] ∧
      u.state.history ≠ r.state.history ∧ u.routing = r.routing := by
  obtain ⟨r, hr, u, hu, happlied, hhistory⟩ : ∃ r,
      Allocator.reroute ⟨{}, Decider.standard⟩ createdCluster premature = .ok r ∧ ∃ u,
      Allocator.reroute ⟨{}, Decider.standard.reverse⟩ createdCluster premature = .ok u ∧
      r.outcomes.map CommandOutcome.isApplied = [true, false] ∧
      u.state.history ≠ r.state.history := by
    have hruns : (Allocator.reroute ⟨{}, Decider.standard⟩ createdCluster premature).toOption.any
        (fun r => (Allocator.reroute ⟨{}, Decider.standard.reverse⟩ createdCluster
          premature).toOption.any fun u => r.outcomes.map CommandOutcome.isApplied = [true, false] ∧
            u.state.history ≠ r.state.history) = true := by
      decide +kernel
    obtain ⟨r, hr, hany⟩ := exists_ok_of_any (P := fun r => Option.any _ _ = true) (by
      simpa only [Bool.decide_eq_true] using hruns)
    exact ⟨r, hr, exists_ok_of_any hany⟩
  have hsame := reroute_perm (List.Subset.refl _) (List.reverse_perm _).symm {} createdCluster
    premature
  rw [hr, hu] at hsame
  exact ⟨r, u, hr, hu, happlied, hhistory, Except.ok.inj hsame⟩

end ShardAllocation
