/-
Rebalancing in a pass.

Whatever a pass over a reachable snapshot did before, its rebalancer ends without a fault, brings
the members closer together with each of its moves and stops for a reason.  A difference of one
copy is no such reason to go on, however low the threshold: a move would only turn it around.

* `reachable_rebalance` — the rebalancer of every pass;
* `not_levelled_slight` — a difference of one copy beyond the threshold.
-/
import ShardAllocation.Proofs.Cluster.Fixpoint
import ShardAllocation.Proofs.Pass.Rebalancing

namespace ShardAllocation

/-- The rebalancer of a pass over a reachable snapshot, under settings that make sense and with
the standard deciders: it ends, each of its moves takes a started copy to a member that is lighter
by two at least and by more than the threshold, and no more copies move than did before or than
the limit lets.  When it stops, it may not run or no member has such a copy. -/
theorem reachable_rebalance {s : ClusterState} (h : Reachable s) {set : Settings}
    (hset : set.validate = .ok ()) (t : Trigger) :
    ∃ p os m q, Pass.begin s set t.time = .ok p ∧
      Pass.beforeRebalance Decider.standard t p = .ok os m ∧ m.settings = set ∧
      Pass.rebalance Decider.standard m = .ok () q ∧
      Allocator.phases Decider.standard t p = .ok os q ∧
      Pass.Runs (Pass.Turn Decider.standard) m q ∧
      q.view.countInState .relocating ≤
        max (m.view.countInState .relocating) set.clusterConcurrentRebalance ∧
      (Decider.clusterRebalance Decider.standard q ≠ .yes ∨
        ∀ c n k, ¬ Pass.Levels Decider.standard q c n k) := by
  let P : Pass.Policy := ⟨Decider.standard, t, fun _ => False⟩
  have hsame : Decider.sameShard ∈ P.deciders := List.mem_cons_self
  have hlimit : Decider.concurrentRebalance ∈ P.deciders := by simp [P, Decider.standard]
  obtain ⟨p, hbegin, hp, -, -, hsettings, -⟩ := h.wellFormed.begin_eq set t.time
  obtain ⟨os, m, hbefore, hm, hkept⟩ :=
    (Pass.beforeRebalance_leads (P := P) hp).exists_ok fun hno => hno hsame
  rw [hsettings] at hkept
  obtain ⟨q, hrun, hturns, hmoving, hreason⟩ :=
    Pass.rebalance_turns (P := P) hm (by rw [hkept]; exact hset) hsame hlimit
  rw [hkept] at hmoving
  have hphases : Allocator.phases Decider.standard t p = .ok os q := by
    rw [Pass.phases_eq_beforeRebalance, bind_ok hbefore, bind_ok hrun]
    rfl
  exact ⟨p, os, m, q, hbegin, hbefore, hkept, hrun, hphases, hturns, hmoving, hreason⟩

/-! ### One loaded member -/

/-- The passes before and after the rebalancer, if no phase ends with a fault. -/
def aroundRebalance? (s : ClusterState) (set : Settings) (t : Trigger) : Option (Pass × Pass) :=
  match Pass.begin s set t.time with
  | .error _ => none
  | .ok p =>
    match Pass.beforeRebalance Decider.standard t p with
    | .error _ _ => none
    | .ok _ m =>
      match Pass.rebalance Decider.standard m with
      | .error _ _ => none
      | .ok _ q => some (m, q)

theorem aroundRebalance?_eq_some_iff {s : ClusterState} {set : Settings} {t : Trigger}
    {m q : Pass} : aroundRebalance? s set t = some (m, q) ↔
      ∃ p os, Pass.begin s set t.time = .ok p ∧
        Pass.beforeRebalance Decider.standard t p = .ok os m ∧
        Pass.rebalance Decider.standard m = .ok () q := by
  constructor
  · intro h
    unfold aroundRebalance? at h
    split at h
    next => cases h
    next p hbegin =>
      split at h
      next => cases h
      next os k hbefore =>
        split at h
        next => cases h
        next hrun =>
          cases h
          exact ⟨p, os, hbegin, hbefore, hrun⟩
  · rintro ⟨p, os, hbegin, hbefore, hrun⟩
    simp only [aroundRebalance?, hbegin, hbefore, hrun]

/-- Two members, of which the first one has all copies of an index: started primaries. -/
def lopsidedCluster (shards : Nat) : ClusterState :=
  let member := ClusterState.initial.withMembers (SortedMap.ofList [("a", none)])
  let placed := (member.declaring ⟨"x", shards, 0⟩).under { settings := {} } .idle
  let started := (List.range shards).map fun i => ⟨⟨"x", i⟩, "a"⟩
  (placed.under { settings := {} } { Trigger.idle with started }).withMembers twoMembers

theorem reachable_lopsidedCluster (shards : Nat) : Reachable (lopsidedCluster shards) := by
  have hinitial : Reachable .initial := ⟨[], .refl⟩
  have hmember := hinitial.step (.members (SortedMap.ofList [("a", none)]))
  have hplaced := (hmember.declaring ⟨"x", shards, 0⟩).under { settings := {} } .idle
  exact (hplaced.under _ _).step (.members twoMembers)

/-- With two copies one of them moves to the second member, and then the loads are even. -/
theorem reachable_rebalance_lopsided : ∃ p os m q,
    Pass.begin (lopsidedCluster 2) {} Trigger.idle.time = .ok p ∧
    Pass.beforeRebalance Decider.standard .idle p = .ok os m ∧
    Pass.rebalance Decider.standard m = .ok () q ∧
    Pass.Runs (Pass.Turn Decider.standard) m q ∧
    m.view.countInState .relocating = 0 ∧ q.view.countInState .relocating = 1 ∧
    q.unevenness < m.unevenness := by
  obtain ⟨p, os, m, q, hbegin, hbefore, -, hrun, -, hturns, -⟩ :=
    reachable_rebalance (reachable_lopsidedCluster 2) (rfl : Settings.validate {} = .ok ()) .idle
  have hsome := aroundRebalance?_eq_some_iff.mpr ⟨p, os, hbegin, hbefore, hrun⟩
  have heval : (aroundRebalance? (lopsidedCluster 2) {} .idle).any (fun (m, q) =>
      m.view.countInState .relocating = 0 ∧ q.view.countInState .relocating = 1 ∧
        q.unevenness < m.unevenness) = true := by
    decide +kernel
  rw [hsome] at heval
  exact ⟨p, os, m, q, hbegin, hbefore, hrun, hturns, of_decide_eq_true heval⟩

/-- Half a copy is enough of a difference. -/
def Settings.lenient : Settings where
  rebalance := { threshold := Binary.nearest .single false 1 2 }

/-- The only copy may move, and the difference of one copy exceeds the threshold, but the
rebalancer stops. -/
theorem not_levelled_slight : Reachable (lopsidedCluster 1) ∧ Settings.lenient.validate = .ok () ∧
    ∃ p os m q c,
      Pass.begin (lopsidedCluster 1) .lenient Trigger.idle.time = .ok p ∧
      Pass.beforeRebalance Decider.standard .idle p = .ok os m ∧
      Pass.rebalance Decider.standard m = .ok () q ∧
      Decider.clusterRebalance Decider.standard q = .yes ∧
      q.view.copyOn? c.shard "a" = some c ∧ c.state = .started ∧
      q.view.isLive "a" = true ∧ q.view.isLive "b" = true ∧
      Binary.lt Settings.lenient.rebalance.threshold
        (Binary.natural (q.view.weightOn "a" - q.view.weightOn "b")) = true ∧
      Decider.shardRebalance Decider.standard c q = .yes ∧
      Pass.Approves Decider.standard q c "b" := by
  refine ⟨reachable_lopsidedCluster 1, by decide +kernel, ?_⟩
  have heval : (aroundRebalance? (lopsidedCluster 1) .lenient .idle).any (fun (_, q) =>
      Decider.clusterRebalance Decider.standard q = .yes ∧ q.view.isLive "a" = true ∧
      q.view.isLive "b" = true ∧
      Binary.lt Settings.lenient.rebalance.threshold
        (Binary.natural (q.view.weightOn "a" - q.view.weightOn "b")) = true ∧
      (q.view.copyOn? ⟨"x", 0⟩ "a").any (fun c =>
        c.shard = ⟨"x", 0⟩ ∧ c.state = .started ∧
        Decider.shardRebalance Decider.standard c q = .yes ∧
        (q.view.node? "b").any (fun node =>
          (Decider.allocation Decider.standard c node q false).decision = .yes) = true) = true) =
      true := by
    decide +kernel
  obtain ⟨⟨m, q⟩, hsome, hfacts⟩ := (Option.any_eq_true _ _).mp heval
  obtain ⟨p, os, hbegin, hbefore, hrun⟩ := aroundRebalance?_eq_some_iff.mp hsome
  obtain ⟨hallowed, ha, hb, hbeyond, hcopy⟩ := of_decide_eq_true hfacts
  obtain ⟨c, hc, hfacts⟩ := (Option.any_eq_true _ _).mp hcopy
  obtain ⟨hshard, hs, hmovable, htarget⟩ := of_decide_eq_true hfacts
  obtain ⟨node, hnode, hyes⟩ := (Option.any_eq_true _ _).mp htarget
  exact ⟨p, os, m, q, c, hbegin, hbefore, hrun, hallowed, hshard ▸ hc, hs, ha, hb, hbeyond,
    hmovable, node, hnode, of_decide_eq_true hyes⟩

end ShardAllocation
