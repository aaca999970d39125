/-
Primaries that are filled from nothing.

A pass places a primary on an empty store: what data the shard had elsewhere is given up.  Under
the standard deciders nothing is given up that a node of the cluster still has.  Between passes
a shard has replicas on nodes only beside an active primary, and whenever a pass places a
primary, no node holds a copy of the shard at all.  The log of the pass says when that is: it
can be replayed up to any of its steps.

* `Passage.replay` — replaying the log of a pass leads from the one snapshot to the next;
* `Passage.layout_placed` — the layout on which a primary is placed;
* `standardReachable_assigned` — replicas beside an active primary, and no copy beside one that
  is filled from nothing.
-/
import ShardAllocation.Proofs.Cluster.Layout
import ShardAllocation.Proofs.Cluster.Survival
import ShardAllocation.Proofs.Pass.Log

namespace ShardAllocation

namespace View

variable {v : View} {m : Metadata} {c : Copy}

/-- While the primary slot of a shard waits, its replicas are not beside an active primary, so
no node holds a copy. -/
theorem Sound.copyOn?_eq_none (h : v.Sound m) (hled : v.Led c.shard) (hc : c ∈ v.unassigned)
    (hprim : c.primary = true) (n : NodeId) : v.copyOn? c.shard n = none := by
  have hone := h.primaries c.shard (h.knows_of_mem hc)
  have hwait : 0 < v.waitingCount c.shard id := waitingCount_pos hc hprim
  have hslot : ∀ {k d}, v.copyOn? c.shard k = some d → d.isRelocationTarget = false →
      d.primary = false := by
    intro k d hd ht
    by_contra hdprim
    have hheld := assignedCount_pos (q := id) h.consistent.indexed hd ht (by simpa using hdprim)
    rw [roleCount] at hone
    omega
  have hreplica : ∀ {k d}, v.copyOn? c.shard k = some d → d.primary = false := by
    intro k d hd
    cases ht : d.isRelocationTarget with
    | false => exact hslot hd ht
    | true =>
      -- the target of a move has the role of its source
      obtain ⟨j, hj⟩ := Option.isSome_iff_exists.mp (Copy.isRelocationTarget_iff.mp ht).2
      have hlinked := h.consistent.linked c.shard
      obtain ⟨e, he, -, hrole, -⟩ := hlinked.exists_peer hd hj
      have hother := hlinked.isRelocationTarget_peer hd hj he
      rw [ht] at hother
      exact hrole.symm.trans (hslot he hother)
  cases hn : v.copyOn? c.shard n with
  | none => rfl
  | some d =>
    exfalso
    rcases hled with ⟨k, e, he, -, heprim⟩ | hall
    · rw [hreplica he] at heprim
      cases heprim
    · have hdprim := hall n d hn
      rw [hreplica hn] at hdprim
      cases hdprim

end View

namespace Passage

variable {a : Allocator} {s : ClusterState} {t : Trigger} {r : RerouteResult} {p m q : Pass}
variable {shard : ShardId} {n : NodeId} {source : Option NodeId}
variable {before after : List Transition}

/-- The layouts at every point of a pass follow from the snapshot and the log up to there. -/
theorem replay_of_runs (h : Passage a s t r p m q) (hs : s.WellFormed)
    {G : Pass → Change → Prop} {u : Pass} (hruns : Pass.Runs G p u) (shard : ShardId) :
    u.view.copyOn? shard =
      u.view.transitions.foldl (Layout.replay shard) (s.table.layout shard) := by
  obtain ⟨log, hlog, hreplay⟩ := hruns.replay h.sound
  rw [h.loaded.transitions, List.nil_append] at hlog
  rw [hreplay, hlog, h.layout_first hs]

/-- Replaying the log of a pass leads from the one snapshot to the next. -/
theorem replay (h : Passage a s t r p m q) (hs : s.WellFormed) (shard : ShardId) :
    r.state.table.layout shard =
      r.transitions.foldl (Layout.replay shard) (s.table.layout shard) := by
  let P := Pass.Policy.ofOutcomes a.deciders t r.outcomes
  let G : Pass → Change → Prop := fun u ch => P.Completes u ch ∨ P.Admits u ch
  have hruns : Pass.Runs G p q :=
    (h.completes.mono fun _ _ => .inl).trans (h.admits.mono fun _ _ => .inr)
  rw [← h.layout_last, h.replay_of_runs hs hruns, h.transitions_eq]

/-- When a pass places a primary, no node holds a copy of its shard. -/
theorem layout_placed (h : Passage a s t r p m q) (hs : s.WellFormed)
    (hds : Decider.replicaAfterPrimaryActive ∈ a.deciders)
    (hled : ∀ x, s.table.shard? shard = some x → x.Led)
    (hlog : r.transitions = before ++ .initialized shard n true source :: after) (k : NodeId) :
    before.foldl (Layout.replay shard) (s.table.layout shard) k = none := by
  let P := Pass.Policy.ofOutcomes a.deciders t r.outcomes
  obtain ⟨l, j, hcourse⟩ := h.course
  rw [h.transitions_eq] at hlog
  have hl : Pass.Runs (fun u ch => P.Completes u ch ∨ P.Clears u ch) p l :=
    (hcourse.completes.mono fun _ _ => .inl).trans (hcourse.clears.mono fun _ _ => .inr)
  have hlast := hcourse.arranges.admits_of_arranges
  rcases hlast.exists_placed hlog with ⟨rest, hearly⟩ |
    ⟨u, ch, c, hu, hbefore, hfit, hguard, hchange, rfl, hprim⟩
  · -- nothing is placed before the departed nodes are forgotten
    exfalso
    rcases hl.exists_placed hearly with ⟨rest, hnone⟩ |
      ⟨u, ch, c, -, -, -, hguard, hchange, -, -⟩
    · rw [h.loaded.transitions] at hnone
      simp at hnone
    · rcases hchange with rfl | rfl
      · exact hguard.elim id And.right
      · exact hguard.elim id And.right
  rcases hchange with rfl | rfl
  swap
  · -- only replicas are created
    rw [hfit.2.2.1] at hprim
    cases hprim
  have hadmits : Pass.Runs P.Admits m u := hcourse.clears.admits_of_clears.trans hu
  have hlater := h.following_of_runs hds (h.led_first hs hled) hadmits
  have hmembers := hcourse.allLive.runs (hcourse.sound h.sound).1 hu
  have hledu := hlater.2.led hlater.1.view.consistent hmembers
  have hempty := hlater.1.view.copyOn?_eq_none hledu hfit.1 hprim k
  have hruns := (hl.mono (H := fun _ _ => True) fun _ _ _ => trivial).trans
    (hu.mono fun _ _ _ => trivial)
  rw [h.replay_of_runs hs hruns, hbefore] at hempty
  exact hempty

end Passage

/-- In every snapshot that passes with the standard deciders lead to, a shard with a replica on
a node has an active primary.  And the log of such a pass, which leads from the layout of every
shard to the one after it, places a primary only where no node holds a copy of its shard. -/
theorem standardReachable_assigned {s : ClusterState} (h : StandardReachable s) :
    (∀ shard x c, s.table.shard? shard = some x → c ∈ x.copies → c.primary = false →
      c.state ≠ .unassigned →
        ∃ d, x.primary? = some d ∧ (d.state = .started ∨ d.state = .relocating)) ∧
    ∀ (a : Allocator) (t : Trigger) (r : RerouteResult), a.deciders = Decider.standard →
      a.reroute s t = .ok r → ∀ shard,
        r.state.table.layout shard =
          r.transitions.foldl (Layout.replay shard) (s.table.layout shard) ∧
        ∀ n source before after,
          r.transitions = before ++ .initialized shard n true source :: after →
            ∀ k, before.foldl (Layout.replay shard) (s.table.layout shard) k = none := by
  have hs := h.reachable.wellFormed
  constructor
  · intro shard x c hx hc hreplica hassigned
    rcases h.led hx with ⟨d, hd, hprim, hactive⟩ | hwait
    · exact ⟨d, (hs.wellFormed_entry hx).primary?_eq hd hprim, Copy.isActive_iff.mp hactive⟩
    · exact absurd (hwait c hc hreplica) hassigned
  · intro a t r hds hr shard
    obtain ⟨p, m, q, hpass⟩ := Allocator.exists_passage hs hr
    have hmem : Decider.replicaAfterPrimaryActive ∈ a.deciders := by
      rw [hds]
      exact List.mem_cons_of_mem _ List.mem_cons_self
    exact ⟨hpass.replay hs shard, fun n source before after hlog =>
      hpass.layout_placed hs hmem (fun x hx => h.led hx) hlog⟩

/-- The cluster after both members were replaced by a node without data. -/
def replacedCluster : ClusterState := filledCluster.withMembers (SortedMap.ofList [("c", none)])

/-- A command gives the data on both members up: the primary is placed once both copies are
gone. -/
theorem standardReachable_assigned_forced :
    ∃ r before, ({ settings := {} } : Allocator).reroute replacedCluster
        { reason := "left", time := ⟨0, 0⟩, commands := [.allocate ⟨"x", 0⟩ "c" true] } = .ok r ∧
      r.transitions = before ++ [.initialized ⟨"x", 0⟩ "c" true none] ∧
      before = [.unassigned ⟨"x", 0⟩ "a" .nodeLeft, .unassigned ⟨"x", 0⟩ "b" .nodeLeft] ∧
      ∀ k, before.foldl (Layout.replay ⟨"x", 0⟩) (replacedCluster.table.layout ⟨"x", 0⟩) k =
        none := by
  have hrun : (({ settings := {} } : Allocator).reroute replacedCluster
      { reason := "left", time := ⟨0, 0⟩, commands := [.allocate ⟨"x", 0⟩ "c" true] }).toOption.any
        (fun r => r.transitions = [.unassigned ⟨"x", 0⟩ "a" .nodeLeft,
          .unassigned ⟨"x", 0⟩ "b" .nodeLeft, .initialized ⟨"x", 0⟩ "c" true none]) = true := by
    decide +kernel
  obtain ⟨r, hr, hlog⟩ := exists_ok_of_any hrun
  have hreach : StandardReachable replacedCluster :=
    standardReachable_filledCluster.step (.members _) trivial
  have hempty := ((standardReachable_assigned hreach).2 _ _ r rfl hr ⟨"x", 0⟩).2 "c" none
    [.unassigned ⟨"x", 0⟩ "a" .nodeLeft, .unassigned ⟨"x", 0⟩ "b" .nodeLeft] [] hlog
  exact ⟨r, _, hr, hlog, rfl, hempty⟩

end ShardAllocation
