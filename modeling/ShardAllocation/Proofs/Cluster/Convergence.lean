/-
Clusters converge.

Passes are run one after the other, and each of them is told that every recovery that was under
way is complete.  Failures, commands and changes of the membership do not come in between.  Then
every pass but the first one brings down the disorder of the cluster or places nothing.  A pass
that places nothing has no recovery under way at its end, and so leaves nothing to report to the
passes after it.  These come to rest.

* `Trigger.Completes`, `Trigger.completing` — the triggers of such passes;
* `Passage.descends` — a pass brings down the disorder, or leaves every copy started;
* `Allocator.rounds` — the snapshots that the passes lead to;
* `reachable_converges` — the passes over a reachable snapshot converge.
-/
import ShardAllocation.Proofs.Cluster.Fixpoint
import ShardAllocation.Proofs.Cluster.Recovery
import ShardAllocation.Proofs.Pass.Completion
import ShardAllocation.Proofs.Pass.Descent

namespace ShardAllocation

/-! ### Recoveries under way -/

/-- The trigger reports exactly the recoveries that are under way, and nothing else happened. -/
structure Trigger.Completes (t : Trigger) (s : ClusterState) : Prop where
  started : ∀ shard n, ⟨shard, n⟩ ∈ t.started ↔ s.table.Fills shard n
  failed : t.failed = []
  commands : t.commands = []

/-- No copy initializes, and none moves. -/
def ClusterState.Settled (s : ClusterState) : Prop :=
  ∀ c ∈ s.table.copies, c.state ≠ .initializing ∧ c.state ≠ .relocating

instance (s : ClusterState) : Decidable s.Settled :=
  inferInstanceAs (Decidable (∀ c ∈ s.table.copies, _))

/-- The report that the recovery of a copy is complete, if one is under way. -/
def Copy.completion? (c : Copy) : Option StartedReport :=
  match c.state with
  | .initializing => c.node.map (StartedReport.mk c.shard)
  | .relocating => c.peer.map (StartedReport.mk c.shard)
  | _ => none

theorem Copy.completion?_eq_some {c : Copy} {shard : ShardId} {n : NodeId} :
    c.completion? = some ⟨shard, n⟩ ↔ c.shard = shard ∧
      (c.state = .initializing ∧ c.node = some n ∨ c.state = .relocating ∧ c.peer = some n) := by
  unfold completion?
  split <;> simp_all [and_comm]

/-- A trigger that reports the recoveries under way in a snapshot. -/
def Trigger.completing (s : ClusterState) : Trigger :=
  { reason := "completed", time := ⟨0, 0⟩, started := s.table.copies.filterMap Copy.completion? }

theorem Trigger.completes_completing (s : ClusterState) : (Trigger.completing s).Completes s where
  started shard n := by
    simp only [Trigger.completing, List.mem_filterMap, Copy.completion?_eq_some,
      RoutingTable.Fills]
  failed := rfl
  commands := rfl

/-- When no recovery is under way there is none to report. -/
theorem Trigger.Completes.quiet {t : Trigger} {s : ClusterState} (h : t.Completes s)
    (hs : s.Settled) : t.Quiet where
  started := by
    refine List.eq_nil_iff_forall_not_mem.mpr fun ⟨shard, n⟩ hmem => ?_
    obtain ⟨c, hc, -, ⟨hinit, -⟩ | ⟨hrel, -⟩⟩ := (h.started shard n).mp hmem
    · exact (hs c hc).1 hinit
    · exact (hs c hc).2 hrel
  failed := h.failed
  commands := h.commands

namespace Passage

variable {a : Allocator} {s : ClusterState} {t t' : Trigger} {r r' : RerouteResult}
variable {p m q p' m' q' : Pass}

/-- The snapshot of a pass that leaves every copy started is settled. -/
theorem settled (h : Passage a s t r p m q) (hq : q.view.Settled) : r.state.Settled := by
  intro c hc
  have hconsistent := h.sound_view.consistent
  rcases (View.mem_slots_iff hconsistent.indexed).mp (h.mem_copies_iff.mp hc) with
    ⟨⟨n, hn⟩, -⟩ | ⟨hwait, -⟩
  · simp [hq c.shard n c hn]
  · simp [hconsistent.waiting c hwait]

/-- A pass that is told of every recovery under way brings down the disorder that the pass before
left, or leaves every copy started. -/
theorem descends (h : Passage a s t r p m q) (h' : Passage a r.state t' r' p' m' q')
    (hds : a.deciders ⊆ Decider.standard) (ht : t'.Completes r.state) :
    q'.view.Settled ∨ Pass.disorder a.deciders q' < Pass.disorder a.deciders q := by
  have hlive := h.allLive_next h'
  have hleads := Pass.completing_leads h'.sound hlive a.deciders ht.failed ht.commands
  obtain ⟨k, hk, hidle, hplaced⟩ := hleads.of_ok h'.phases
  have hsound := hk.sound h'.sound
  -- every recovery under way was reported, so none is left
  have hsettled : k.view.Settled := by
    refine hsound.view.consistent.settled_iff.mpr fun shard n => ?_
    cases hbefore : (p'.view.copyOn? shard n).any (·.isInitializing) with
    | false => exact hk.idle_of_completes hbefore
    | true =>
      rw [h'.layout_first h.wellFormed, ← h.wellFormed.loadable.fills_iff] at hbefore
      exact hidle _ ((ht.started shard n).mpr hbefore)
  have hstart : Pass.disorder a.deciders k = Pass.disorder a.deciders q :=
    (Pass.disorder_completes hk h'.sound).trans (h.alike_next h').disorder_eq
  rcases Pass.disorder_places hplaced.runs hsound (hlive.runs h'.sound hk) hds with hview | hless
  · exact .inl (hview ▸ hsettled)
  · exact .inr (hstart ▸ hless)

end Passage

/-! ### Pass after pass -/

namespace Allocator

/-- The snapshot after so many passes, each with the trigger that is given for its number and the
snapshot that it starts from. -/
def rounds (a : Allocator) (report : Nat → ClusterState → Trigger) (s : ClusterState) :
    Nat → Except Fault ClusterState
  | 0 => .ok s
  | n + 1 => do
    let u ← a.rounds report s n
    let r ← a.reroute u (report n u)
    pure r.state

/-- The next pass that is told of every completed recovery changes nothing. -/
def Rests (a : Allocator) (s : ClusterState) : Prop :=
  s.Settled ∧ ∀ t : Trigger, t.Completes s → ∃ r, a.reroute s t = .ok r ∧ r.changed = false

variable {a : Allocator} {report : Nat → ClusterState → Trigger} {s s₀ u : ClusterState} {n : Nat}
variable {t : Trigger} {r : RerouteResult} {p m q : Pass}

theorem rounds_succ (h : a.rounds report s n = .ok u) (hr : a.reroute u (report n u) = .ok r) :
    a.rounds report s (n + 1) = .ok r.state := by
  simp only [rounds, h, hr, bind, Except.bind]
  rfl

section

variable (hset : a.settings.validate = .ok ()) (hsame : Decider.sameShard ∈ a.deciders)
variable (hds : a.deciders ⊆ Decider.standard) (hreport : ∀ i u, (report i u).Completes u)

include hset hsame hds hreport

/-- Two passes after one that left a settled snapshot, the passes rest. -/
theorem rests_of_settled (h : Passage a s t r p m q) (hsettled : r.state.Settled)
    (hn : a.rounds report s₀ n = .ok r.state) :
    ∃ k u, a.rounds report s₀ k = .ok u ∧ a.Rests u := by
  have hquiet := (hreport n r.state).quiet hsettled
  obtain ⟨r₁, p₁, m₁, q₁, hr₁, h₁⟩ := exists_reroute h.wellFormed hset hsame (report n r.state)
  have hrepeat₁ := h.repeats_next h₁ hds (h.exhausted_last hds) hquiet
  have hsettled₁ : r₁.state.Settled := by
    rw [ClusterState.Settled, hrepeat₁.table]
    exact hsettled
  have hquiet₁ := (hreport (n + 1) r₁.state).quiet hsettled₁
  obtain ⟨r₂, p₂, m₂, q₂, hr₂, h₂⟩ :=
    exists_reroute h₁.wellFormed hset hsame (report (n + 1) r₁.state)
  have hrepeat₂ := h₁.repeats_next h₂ hds (hrepeat₁.exhausted_last hds) hquiet₁
  have hsettled₂ : r₂.state.Settled := by
    rw [ClusterState.Settled, hrepeat₂.table]
    exact hsettled₁
  refine ⟨n + 2, r₂.state, rounds_succ (rounds_succ hn hr₁) hr₂, hsettled₂, fun t ht => ?_⟩
  obtain ⟨r₃, p₃, m₃, q₃, hr₃, h₃⟩ := exists_reroute h₂.wellFormed hset hsame t
  have hrepeat₃ := h₂.repeats_next h₃ hds (hrepeat₂.exhausted_last hds) (ht.quiet hsettled₂)
  exact ⟨r₃, hr₃, hrepeat₁.unchanged_third h₁ h₂ h₃ hds hrepeat₂ hrepeat₃⟩

/-- The passes after one come to rest, by induction on the disorder that it left. -/
theorem exists_rests (h : Passage a s t r p m q) (hn : a.rounds report s₀ n = .ok r.state) :
    ∃ k u, a.rounds report s₀ k = .ok u ∧ a.Rests u := by
  induction hd : Pass.disorder a.deciders q using WellFoundedLT.induction
    generalizing s t r p m q n with
  | _ d ih =>
    obtain ⟨r', p', m', q', hr', h'⟩ := exists_reroute h.wellFormed hset hsame (report n r.state)
    have hnext := rounds_succ hn hr'
    rcases h.descends h' hds (hreport n r.state) with hsettled | hless
    · exact rests_of_settled hset hsame hds hreport h' (h'.settled hsettled) hnext
    · exact ih _ (hd ▸ hless) h' hnext rfl

end

end Allocator

/-- Passes over a reachable snapshot, each of which is told of every recovery that is under way
when it starts, lead to a snapshot in which no copy initializes or moves and which the next such
pass leaves as it is. -/
theorem reachable_converges {s : ClusterState} (h : Reachable s) {a : Allocator}
    (hset : a.settings.validate = .ok ()) (hsame : Decider.sameShard ∈ a.deciders)
    (hds : a.deciders ⊆ Decider.standard) {report : Nat → ClusterState → Trigger}
    (hreport : ∀ i u, (report i u).Completes u) :
    ∃ n u, a.rounds report s n = .ok u ∧ u.Settled ∧
      ∀ t : Trigger, t.Completes u → ∃ r, a.reroute u t = .ok r ∧ r.changed = false := by
  obtain ⟨r, p, m, q, hr, hfirst⟩ := Allocator.exists_reroute h.wellFormed hset hsame (report 0 s)
  exact Allocator.exists_rests hset hsame hds hreport hfirst (Allocator.rounds_succ rfl hr)

/-- Two primaries initialize, a third one is started, and the other slots wait. -/
theorem reachable_converges_crowded :
    ∃ n u, ({ settings := {} } : Allocator).rounds (fun _ => .completing) crowdedCluster n = .ok u ∧
      u.Settled ∧ ∀ t : Trigger, t.Completes u →
        ∃ r, ({ settings := {} } : Allocator).reroute u t = .ok r ∧ r.changed = false :=
  reachable_converges reachable_crowdedCluster rfl (by simp [Decider.standard]) (List.Subset.refl _)
    fun _ => Trigger.completes_completing

end ShardAllocation
