/-
Reports of completed recoveries from several nodes.

The nodes report on their own, so reports come in any order, and a node may repeat its own.  What
a pass makes of them depends on which reports there are only.  Their order is still seen in the
steps that it notes: first come the completed recoveries, in the order in which they were
reported, then everything else.

* `Transition.StartsReordered` — lists of steps with the completed recoveries in another order;
* `Decider.IgnoresStartOrder` — deciders that do not look at this order, such as the standard ones;
* `Pass.phases_sameReports` — the phases for the same reports in any order and number are in
  lockstep;
* `reachable_sameReports` — passes for them come to the same;
* `reroute_afterMove` — not so where a decider looks at the order.
-/
import ShardAllocation.Proofs.Cluster.RecoverySource
import ShardAllocation.Proofs.Pass.Alike
import ShardAllocation.Proofs.Pass.Lockstep
import ShardAllocation.Proofs.Pass.Starting

namespace ShardAllocation

/-! ### Steps with the completed recoveries in another order -/

/-- The lists begin with the same completed recoveries, in any order, and are the same from there
on. -/
def Transition.StartsReordered (ts us : List Transition) : Prop :=
  ∃ xs ys rest, ts = xs ++ rest ∧ us = ys ++ rest ∧ xs.Perm ys ∧
    ∀ x ∈ xs, ∃ s n, x = .started s n

namespace Transition.StartsReordered

variable {ts us : List Transition}

theorem snoc (h : StartsReordered ts us) (t : Transition) :
    StartsReordered (ts ++ [t]) (us ++ [t]) := by
  obtain ⟨xs, ys, rest, rfl, rfl, hperm, hstarted⟩ := h
  exact ⟨xs, ys, rest ++ [t], List.append_assoc .., List.append_assoc .., hperm, hstarted⟩

/-- The completed recoveries ask for no recovery. -/
theorem filterMap_recovery?_eq (h : StartsReordered ts us) :
    us.filterMap (·.recovery?) = ts.filterMap (·.recovery?) := by
  obtain ⟨xs, ys, rest, rfl, rfl, hperm, hstarted⟩ := h
  have hnone : ∀ x ∈ xs, x.recovery? = none := by
    intro x hx
    obtain ⟨s, n, rfl⟩ := hstarted x hx
    rfl
  rw [List.filterMap_append, List.filterMap_append, List.filterMap_eq_nil_iff.mpr hnone,
    List.filterMap_eq_nil_iff.mpr fun x hx => hnone x (hperm.mem_iff.mpr hx)]

end Transition.StartsReordered

/-- The same is written down, up to the order of the completed recoveries, and the answers are the
same. -/
def Leeway.startOrder : Leeway where
  written ts h us k := Transition.StartsReordered ts us ∧ k = h
  answer := Eq
  rejection := Eq
  noted t h := ⟨h.1.snoc t, h.2⟩
  recorded {_ _ _ _ ds es} s primary outcome hanswers h := by
    obtain rfl : ds = es := List.forall₂_eq_eq_eq ▸ hanswers
    exact ⟨h.1, by rw [h.2]⟩
  decision h := congrArg NodeDecision.decision h.symm
  vetoed s n h := congrArg (fun d => Rejection.vetoed s n d.reasons) h
  refl _ := rfl

theorem CommandOutcome.Matches.eq {o u : CommandOutcome} (h : o.Matches .startOrder u) : o = u := by
  obtain ⟨_, rejection⟩ := o
  obtain ⟨command, other⟩ := u
  obtain ⟨rfl, hrejection⟩ := h
  cases hrejection with
  | some heq => exact congrArg (fun r => CommandOutcome.mk command (some r)) heq
  | none => rfl

/-! ### Deciders that do not look at the order -/

namespace Decider

/-- What the decider says stays the same when the completed recoveries that are noted are put in
another order. -/
structure IgnoresStartOrder (d : Decider) : Prop where
  canAllocate : ∀ {p : Pass} {us}, Transition.StartsReordered p.view.transitions us → ∀ c node,
    d.canAllocate c node { p with view := p.view.noting us } = d.canAllocate c node p
  canRemain : ∀ {p : Pass} {us}, Transition.StartsReordered p.view.transitions us → ∀ c node,
    d.canRemain c node { p with view := p.view.noting us } = d.canRemain c node p
  canRebalanceShard : ∀ {p : Pass} {us}, Transition.StartsReordered p.view.transitions us → ∀ c,
    d.canRebalanceShard c { p with view := p.view.noting us } = d.canRebalanceShard c p
  canRebalanceCluster : ∀ {p : Pass} {us}, Transition.StartsReordered p.view.transitions us →
    d.canRebalanceCluster { p with view := p.view.noting us } = d.canRebalanceCluster p

variable {ds : List Decider} {d : Decider}

/-- The standard deciders look at no noted step. -/
theorem ignoresStartOrder_of_standard (hd : d ∈ standard) : d.IgnoresStartOrder := by
  have halike : ∀ (p : Pass) us, p.Alike { p with view := p.view.noting us } := fun p us =>
    ⟨rfl, rfl, rfl, .refl _, rfl, rfl, rfl⟩
  constructor
  case canAllocate => exact fun {p us} _ c => ((halike p us).verdicts_eq hd c).1
  case canRemain => exact fun {p us} _ c => ((halike p us).verdicts_eq hd c).2.1
  case canRebalanceShard => exact fun {p us} _ c => ((halike p us).verdicts_eq hd c).2.2
  case canRebalanceCluster => exact fun {p us} _ => (halike p us).canRebalanceCluster_eq hd

theorem companions_of_ignoresStartOrder (h : ∀ d ∈ ds, d.IgnoresStartOrder) :
    Companions .startOrder ds ds := by
  constructor
  case allocation =>
    rintro p _ ⟨us, _, rfl, hus, rfl⟩ c node
    refine congrArg (combine node.id false) (List.map_congr_left fun d hd => ?_)
    exact ((h d hd).canAllocate hus c node).symm
  case remaining =>
    rintro p _ ⟨us, _, rfl, hus, rfl⟩ c node
    exact congrArg (fun verdicts => (combine node.id false verdicts).decision)
      (List.map_congr_left fun d hd => (h d hd).canRemain hus c node)
  case shardRebalance =>
    rintro p _ ⟨us, _, rfl, hus, rfl⟩ c
    exact congrArg worstOf (List.map_congr_left fun d hd => (h d hd).canRebalanceShard hus c)
  case clusterRebalance =>
    rintro p _ ⟨us, _, rfl, hus, rfl⟩
    exact congrArg worstOf (List.map_congr_left fun d hd => (h d hd).canRebalanceCluster hus)

end Decider

/-! ### Passes for the same reports -/

section Passes

variable {ds : List Decider} {t : Trigger} {reports : List StartedReport}

/-- The phases are in lockstep when the same reports come in another order or number. -/
theorem Pass.phases_sameReports {p : Pass} (hp : p.view.Consistent)
    (hnone : p.view.transitions = []) (hds : ∀ d ∈ ds, d.IgnoresStartOrder)
    (hsame : ∀ r, r ∈ reports ↔ r ∈ t.started) :
    LockstepAt (Abreast .startOrder) (List.Forall₂ (CommandOutcome.Matches .startOrder)) p p
      (Allocator.phases ds t) (Allocator.phases ds { t with started := reports }) := by
  obtain ⟨w, hfirst, hw⟩ := forM_applyStarted_completed hp t.started (.refl hp)
  obtain ⟨u, hsecond, hu⟩ := forM_applyStarted_completed hp reports (.refl hp)
  obtain ⟨ts, us, hts, rfl, hperm, hstarted⟩ := hw.unique hu (by simp [hsame])
  rw [hnone, List.nil_append] at hts hsecond
  have habreast : Abreast .startOrder { p with view := w } { p with view := w.noting us } :=
    ⟨us, p.history, rfl, ⟨ts, us, [], by rw [hts, List.append_nil], (List.append_nil us).symm,
      hperm, hstarted⟩, rfl⟩
  have hrest := afterStarted_lockstep (Decider.companions_of_ignoresStartOrder hds) t _ _ habreast
  -- the phases take in the completed recoveries first
  have hphases : ∀ started, Allocator.phases ds { t with started } =
      (started.forM applyStarted >>= fun _ => Allocator.phases ds { t with started := [] }) :=
    fun _ => rfl
  rw [LockstepAt, hphases reports, bind_ok hsecond, hphases t.started, bind_ok hfirst]
  exact hrest

/-- The table does not depend on the noted steps. -/
theorem View.freeze_noting (v : View) (ts : List Transition) (m : Metadata) :
    (v.noting ts).freeze m = v.freeze m := by
  suffices h : ∀ (rest earlier : List IndexMetadata) (table : RoutingTable),
      (v.noting ts).freezeAll earlier table rest = v.freezeAll earlier table rest from h _ _ _
  intro rest
  induction rest with
  | nil => exact fun _ _ => rfl
  | cons m rest ih => exact fun _ _ => ih _ _

/-- In the results the noted steps are all that may differ. -/
theorem conclude_startsReordered {p q : Pass} {os us : List CommandOutcome}
    (h : p.Abreast .startOrder q)
    (houtcomes : List.Forall₂ (CommandOutcome.Matches .startOrder) os us) :
    Allocator.conclude q us =
        { Allocator.conclude p os with transitions := q.view.transitions } ∧
      Transition.StartsReordered (Allocator.conclude p os).transitions q.view.transitions := by
  obtain rfl : os = us := List.forall₂_eq_eq_eq ▸ houtcomes.imp fun _ _ => CommandOutcome.Matches.eq
  obtain ⟨ts, _, rfl, hts, rfl⟩ := h
  have hpending : Allocator.pendingRecoveries (p.view.noting ts) ts =
      Allocator.pendingRecoveries p.view p.view.transitions :=
    congrArg (List.filter _) hts.filterMap_recovery?_eq
  simp only [Allocator.conclude, View.freeze_noting]
  split
  · exact ⟨congrArg (RerouteResult.mk _ _ _ · _) hpending, hts⟩
  · exact ⟨rfl, hts⟩

end Passes

/-- It does not matter in which order completed recoveries are reported, nor how often: the pass
leaves the same snapshot, asks for the same recoveries and gives the same outcomes, and it notes
the same steps up to the order of the completed recoveries.

A decider could read this order off the noted steps, and answer accordingly.  The condition on the
deciders rules this out; it holds for all standard ones. -/
theorem reachable_sameReports {s : ClusterState} (h : Reachable s) {a : Allocator}
    (hset : a.settings.validate = .ok ()) (hds : Decider.sameShard ∈ a.deciders)
    (hignores : ∀ d ∈ a.deciders, d.IgnoresStartOrder) (t : Trigger)
    {reports : List StartedReport} (hsame : ∀ r, r ∈ reports ↔ r ∈ t.started) :
    ∃ r u, a.reroute s t = .ok r ∧ a.reroute s { t with started := reports } = .ok u ∧
      u.state = r.state ∧ u.changed = r.changed ∧ u.recoveries = r.recoveries ∧
      u.outcomes = r.outcomes ∧ Transition.StartsReordered r.transitions u.transitions := by
  obtain ⟨p, hbegin, hp, -, -, -, hloaded⟩ := h.wellFormed.begin_eq a.settings t.time
  have hphases := Pass.phases_sameReports hp.view.consistent hloaded.transitions hignores hsame
  obtain ⟨r, -, -, -, hr, -⟩ := Allocator.exists_reroute h.wellFormed hset hds t
  rcases Allocator.reroute_lockstep (t := t) (u := { t with started := reports }) rfl fun q hq =>
      Except.ok.inj (hbegin.symm.trans hq) ▸ hphases with
    ⟨e, herror, -⟩ | ⟨p, q, os, us, hpq, hos, hfirst, hsecond⟩
  · rw [hr] at herror
    cases herror
  · obtain ⟨heq, hreordered⟩ := conclude_startsReordered hpq hos
    rw [heq] at hsecond
    exact ⟨_, _, hfirst, hsecond, rfl, rfl, rfl, rfl, hreordered⟩

/-- The move of the primary is complete, and so is the recovery of the replica.  The source of the
move reports as well, and there is nothing to complete on it. -/
def bothStarted : Trigger where
  reason := "started"
  time := ⟨0, 0⟩
  started := [⟨⟨"x", 0⟩, "c"⟩, ⟨⟨"x", 0⟩, "a"⟩, ⟨⟨"x", 0⟩, "b"⟩]

/-- The same reports in another order, and one of them twice. -/
def bothStartedAgain : List StartedReport :=
  [⟨⟨"x", 0⟩, "b"⟩, ⟨⟨"x", 0⟩, "a"⟩, ⟨⟨"x", 0⟩, "c"⟩, ⟨⟨"x", 0⟩, "b"⟩]

/-- Both copies of the shard are complete in either order, and the steps show the order. -/
theorem reachable_sameReports_moving :
    ∃ r u, ({ settings := {} } : Allocator).reroute movingCluster bothStarted = .ok r ∧
      ({ settings := {} } : Allocator).reroute movingCluster
        { bothStarted with started := bothStartedAgain } = .ok u ∧
      r.transitions = [.started ⟨"x", 0⟩ "c", .started ⟨"x", 0⟩ "b"] ∧
      u.transitions = [.started ⟨"x", 0⟩ "b", .started ⟨"x", 0⟩ "c"] ∧
      u.state = r.state ∧ u.changed = r.changed ∧ u.recoveries = r.recoveries ∧
      u.outcomes = r.outcomes := by
  have hsame : ∀ r, r ∈ bothStartedAgain ↔ r ∈ bothStarted.started := by
    simp only [bothStartedAgain, bothStarted, List.mem_cons, List.not_mem_nil, or_false]
    tauto
  obtain ⟨r, u, hr, hu, hstate, hchanged, hrecoveries, houtcomes, -⟩ :=
    reachable_sameReports standardReachable_movingCluster.reachable (a := { settings := {} }) rfl
      List.mem_cons_self (fun _ hd => Decider.ignoresStartOrder_of_standard hd) bothStarted hsame
  have hfirst : (({ settings := {} } : Allocator).reroute movingCluster bothStarted).toOption.any
      (fun r => r.transitions = [.started ⟨"x", 0⟩ "c", .started ⟨"x", 0⟩ "b"]) = true := by
    decide +kernel
  have hsecond : (({ settings := {} } : Allocator).reroute movingCluster
      { bothStarted with started := bothStartedAgain }).toOption.any
      (fun r => r.transitions = [.started ⟨"x", 0⟩ "b", .started ⟨"x", 0⟩ "c"]) = true := by
    decide +kernel
  rw [hr] at hfirst
  rw [hu] at hsecond
  exact ⟨r, u, hr, hu, of_decide_eq_true hfirst, of_decide_eq_true hsecond, hstate, hchanged,
    hrecoveries, houtcomes⟩

/-- A decider that lets copies be placed only if the replica was reported last. -/
def Decider.afterMove : Decider where
  name := "after_move"
  canAllocate _ _ p :=
    if p.view.transitions.head? = some (.started ⟨"x", 0⟩ "c") then
      ⟨"after_move", .yes, "move first"⟩
    else ⟨"after_move", .no, "replica first"⟩

/-- It goes along with the check that copies of a shard keep apart. -/
def Allocator.afterMove : Allocator := ⟨{}, [Decider.sameShard, Decider.afterMove]⟩

/-- The replica fails after its recovery. -/
def startedThenGone : Trigger := { bothStarted with failed := [⟨⟨"x", 0⟩, "b", "gone"⟩] }

/-- Where deciders look at the order it does matter: after the failure the replica is placed again,
but if the same reports come in the reverse order, it is not. -/
theorem reroute_afterMove :
    Reachable movingCluster ∧ Allocator.afterMove.settings.validate = .ok () ∧
      Decider.sameShard ∈ Allocator.afterMove.deciders ∧
      startedThenGone.started.reverse.Perm startedThenGone.started ∧
      ∃ r u, Allocator.afterMove.reroute movingCluster startedThenGone = .ok r ∧
        Allocator.afterMove.reroute movingCluster
          { startedThenGone with started := startedThenGone.started.reverse } = .ok u ∧
        r.recoveries ≠ [] ∧ u.recoveries = [] := by
  have hfirst : (Allocator.afterMove.reroute movingCluster startedThenGone).toOption.any
      (fun r => r.recoveries ≠ []) = true := by
    decide +kernel
  have hsecond : (Allocator.afterMove.reroute movingCluster
      { startedThenGone with started := startedThenGone.started.reverse }).toOption.any
      (fun u => u.recoveries = []) = true := by
    decide +kernel
  obtain ⟨r, hr, hrecovers⟩ := exists_ok_of_any hfirst
  obtain ⟨u, hu, hwaits⟩ := exists_ok_of_any hsecond
  exact ⟨standardReachable_movingCluster.reachable, rfl, List.mem_cons_self,
    List.reverse_perm _, r, u, hr, hu, hrecovers, hwaits⟩

end ShardAllocation
