/-
Passes that have nothing to do.

After one pass, whatever it was about, a pass without reports and commands changes no copy: it
makes no transition and freezes the table that it loaded.  All it does is to record once more
why the slots that wait have no node.  The third such pass records nothing either, and gives
back its snapshot.  The second one does so exactly if the history still has an attempt for every
primary that waits, for a full history drops the oldest attempt of a shard and may drop the only
one that is about its primary.

* `Passage.exhausted_last` — a pass leaves nothing to do;
* `Passage.Repeats`, `Passage.repeats_next` — what a quiet pass after another pass does;
* `reachable_settles` — the passes over a reachable snapshot come to rest;
* `not_settles_of_full` — and the second quiet pass may still change the history.
-/
import ShardAllocation.Proofs.Cluster.Reload
import ShardAllocation.Proofs.Cluster.Run

namespace ShardAllocation

/-- The history has an attempt for every primary that waits and has not lost its data. -/
def ClusterState.RecordsPrimaries (s : ClusterState) : Prop :=
  ∀ c ∈ s.table.copies, c.isUnassigned = true → c.primary = true → Pass.isLostPrimary c = false →
    ∃ x ∈ s.history.attempts c.shard, x.primary = true

instance (s : ClusterState) : Decidable s.RecordsPrimaries :=
  inferInstanceAs (Decidable (∀ c ∈ s.table.copies, _))

namespace Passage

variable {a : Allocator} {s : ClusterState} {t t' : Trigger} {r r' : RerouteResult}
variable {p m q p' m' q' : Pass}

/-- A pass leaves nothing to do. -/
theorem exhausted_last (h : Passage a s t r p m q) (hds : a.deciders ⊆ Decider.standard) :
    Pass.Exhausted a.deciders q := by
  obtain ⟨l, k, hcourse⟩ := h.course
  have hcovers := hcourse.clears.covers (hcourse.completes.covers h.covers_first)
  exact hcourse.placed.exhausted hds (hcourse.sound h.sound).2.1 (hcourse.commands.covers hcovers)

/-- A pass that ends with the table and the history that it began with changed nothing. -/
theorem unchanged (h : Passage a s t r p m q) (htable : r.state.table = s.table)
    (hhistory : r.state.history = s.history) : r.changed = false := by
  obtain ⟨-, -, hfrozen, hlast⟩ := h.state_eq
  rw [h.concluded, Allocator.conclude, h.state_last, if_neg]
  rw [← hfrozen, ← hlast]
  exact not_or.mpr ⟨not_not_intro htable, not_not_intro hhistory⟩

theorem state_of_unchanged (h : Passage a s t r p m q) (hsame : r.changed = false) :
    r.state = s := by
  rw [h.concluded] at hsame ⊢
  exact (Allocator.conclude_unchanged hsame).trans h.state_last

/-- A quiet pass on which nothing is left to do records its attempts, and that is all. -/
theorem last_eq (h : Passage a s t r p m q) (hds : a.deciders ⊆ Decider.standard)
    (hdone : Pass.Exhausted a.deciders p) (hlive : p.AllLive) (ht : t.Quiet) :
    q = { p with history := p.history.recordAll (Pass.attempts a.deciders p) } := by
  have hphases := hdone.phases_eq hds h.sound hlive ht
  rw [h.phases] at hphases
  injection hphases

/-- The pass from `s` moves nothing and records the attempts of its first view. -/
structure Repeats (a : Allocator) (s : ClusterState) (r : RerouteResult) (p q : Pass) : Prop where
  done : Pass.Exhausted a.deciders p
  last : q = { p with history := p.history.recordAll (Pass.attempts a.deciders p) }
  transitions : r.transitions = []
  table : r.state.table = s.table
  history : r.state.history = s.history.recordAll (Pass.attempts a.deciders p)

/-- A quiet pass after another one moves nothing. -/
theorem repeats_next (h : Passage a s t r p m q) (h' : Passage a r.state t' r' p' m' q')
    (hds : a.deciders ⊆ Decider.standard) (hdone : Pass.Exhausted a.deciders q) (ht : t'.Quiet) :
    Repeats a r.state r' p' q' := by
  have hfirst := hdone.alike hds (h.alike_next h')
  have hlast := h'.last_eq hds hfirst (h.allLive_next h') ht
  have hview : q'.view = p'.view := by rw [hlast]
  refine ⟨hfirst, hlast, ?_, ?_, ?_⟩
  · rw [h'.transitions_eq, hview, h'.loaded.transitions]
  · rw [h'.state_eq.2.2.1, hview, h.freeze_next h']
  · rw [h'.state_eq.2.2.2, hlast, h'.history]

namespace Repeats

variable {t₂ t₃ : Trigger} {r₂ r₃ : RerouteResult} {p₂ m₂ q₂ p₃ m₃ q₃ : Pass}

/-- Nothing is left to do after a quiet pass either. -/
theorem exhausted_last (h : Repeats a s r p q) (hds : a.deciders ⊆ Decider.standard) :
    Pass.Exhausted a.deciders q := by
  rw [h.last]
  exact h.done.alike hds (.of_history p _ _)

/-- Quiet passes make the same attempts one after the other. -/
theorem attempts_eq (h₁ : Passage a s t r p m q) (h₂ : Passage a r.state t₂ r₂ p₂ m₂ q₂)
    (hds : a.deciders ⊆ Decider.standard) (h : Repeats a s r p q) :
    Pass.attempts a.deciders p₂ = Pass.attempts a.deciders p := by
  have hlast : p.Alike q := by
    rw [h.last]
    exact .of_history p _ _
  have hview : q.view = p.view := by rw [h.last]
  -- both views have loaded the slots of one table
  have hloaded : p₂.view.unassigned = p.view.unassigned := by
    rw [h₂.loaded.unassigned, h.table, h₁.loaded.unassigned]
  rw [Pass.attempts_alike hds (h₁.alike_next h₂) (by rw [hview, hloaded]),
    Pass.attempts_alike hds hlast (by rw [hview])]

/-- The primaries that wait are those that the pass has tried. -/
theorem recordsPrimaries_iff (h' : Passage a s t r p m q) (h : Repeats a s r p q) :
    r.state.RecordsPrimaries ↔ ∀ x ∈ Pass.attempts a.deciders p, x.2.primary = true →
      ∃ y ∈ (s.history.recordAll (Pass.attempts a.deciders p)).attempts x.1,
        y.primary = true := by
  have hwaiting : ∀ {c}, c ∈ p.view.unassigned ↔ c ∈ s.table.copies ∧ c.isUnassigned = true :=
    fun {c} => by rw [h'.loaded.unassigned, List.mem_filter]
  rw [ClusterState.RecordsPrimaries, h.table, h.history]
  constructor
  · intro hrecords x hx hprim
    obtain ⟨c, hc, hshard, hrole, hlost⟩ := h.done.exists_attempt_iff.mp ⟨x, hx, rfl, hprim⟩
    obtain ⟨hmem, hstate⟩ := hwaiting.mp hc
    exact hshard ▸ hrecords c hmem hstate hrole hlost
  · intro hkept c hc hstate hrole hlost
    obtain ⟨x, hx, hshard, hprim⟩ :=
      h.done.exists_attempt_iff.mpr ⟨c, hwaiting.mpr ⟨hc, hstate⟩, rfl, hrole, hlost⟩
    exact hshard ▸ hkept x hx hprim

/-- The second of two quiet passes changes nothing exactly if the first one left an attempt for
every primary that waits. -/
theorem changed_eq_false_iff (h₁ : Passage a s t r p m q) (h₂ : Passage a r.state t₂ r₂ p₂ m₂ q₂)
    (hds : a.deciders ⊆ Decider.standard) (hrepeat₁ : Repeats a s r p q)
    (hrepeat₂ : Repeats a r.state r₂ p₂ q₂) :
    r₂.changed = false ↔ r.state.RecordsPrimaries := by
  have hround := Pass.orderly_attempts hds h₁.sound
  have hhistory := hrepeat₂.history
  rw [hrepeat₁.attempts_eq h₁ h₂ hds, hrepeat₁.history] at hhistory
  rw [hrepeat₁.recordsPrimaries_iff h₁, ← hround.recordAll_second_iff, ← hhistory,
    ← hrepeat₁.history]
  constructor
  · intro hunchanged
    rw [h₂.state_of_unchanged hunchanged]
  · exact h₂.unchanged hrepeat₂.table

/-- The third of three quiet passes changes nothing. -/
theorem unchanged_third (h₁ : Passage a s t r p m q) (h₂ : Passage a r.state t₂ r₂ p₂ m₂ q₂)
    (h₃ : Passage a r₂.state t₃ r₃ p₃ m₃ q₃) (hds : a.deciders ⊆ Decider.standard)
    (hrepeat₁ : Repeats a s r p q) (hrepeat₂ : Repeats a r.state r₂ p₂ q₂)
    (hrepeat₃ : Repeats a r₂.state r₃ p₃ q₃) : r₃.changed = false := by
  have hround := Pass.orderly_attempts hds h₁.sound
  have hsame := hrepeat₁.attempts_eq h₁ h₂ hds
  refine h₃.unchanged hrepeat₃.table ?_
  -- the three passes make the same attempts
  rw [hrepeat₃.history, hrepeat₂.attempts_eq h₂ h₃ hds, hrepeat₂.history, hsame, hrepeat₁.history,
    hround.recordAll_third]

end Repeats

end Passage

/-! ### Passes come to rest -/

/-- After one pass over a reachable snapshot, passes without reports and commands move nothing.
The second of them changes nothing at all exactly if the history then has an attempt for every
primary that waits, and the third one changes nothing in any case. -/
theorem reachable_settles {s : ClusterState} (h : Reachable s) {a : Allocator}
    (hset : a.settings.validate = .ok ()) (hsame : Decider.sameShard ∈ a.deciders)
    (hds : a.deciders ⊆ Decider.standard) (t : Trigger) {e₁ e₂ e₃ : Trigger} (he₁ : e₁.Quiet)
    (he₂ : e₂.Quiet) (he₃ : e₃.Quiet) :
    ∃ r r₁ r₂ r₃, a.reroute s t = .ok r ∧ a.reroute r.state e₁ = .ok r₁ ∧
      a.reroute r₁.state e₂ = .ok r₂ ∧ a.reroute r₂.state e₃ = .ok r₃ ∧
      (r₁.transitions = [] ∧ r₁.state.table = r.state.table) ∧
      (r₂.transitions = [] ∧ r₂.state.table = r.state.table) ∧
      (r₂.changed = false ↔ r₁.state.RecordsPrimaries) ∧
      (r₂.changed = false → r₂.state = r₁.state) ∧
      r₃.changed = false ∧ r₃.state = r₂.state := by
  obtain ⟨r, p, m, q, hr, hfirst⟩ := Allocator.exists_reroute h.wellFormed hset hsame t
  obtain ⟨r₁, p₁, m₁, q₁, hr₁, h₁⟩ := Allocator.exists_reroute hfirst.wellFormed hset hsame e₁
  obtain ⟨r₂, p₂, m₂, q₂, hr₂, h₂⟩ := Allocator.exists_reroute h₁.wellFormed hset hsame e₂
  obtain ⟨r₃, p₃, m₃, q₃, hr₃, h₃⟩ := Allocator.exists_reroute h₂.wellFormed hset hsame e₃
  have hrepeat₁ := hfirst.repeats_next h₁ hds (hfirst.exhausted_last hds) he₁
  have hrepeat₂ := h₁.repeats_next h₂ hds (hrepeat₁.exhausted_last hds) he₂
  have hrepeat₃ := h₂.repeats_next h₃ hds (hrepeat₂.exhausted_last hds) he₃
  have hlast := hrepeat₁.unchanged_third h₁ h₂ h₃ hds hrepeat₂ hrepeat₃
  exact ⟨r, r₁, r₂, r₃, hr, hr₁, hr₂, hr₃, ⟨hrepeat₁.transitions, hrepeat₁.table⟩,
    ⟨hrepeat₂.transitions, hrepeat₂.table.trans hrepeat₁.table⟩,
    hrepeat₁.changed_eq_false_iff h₁ h₂ hds hrepeat₂, h₂.state_of_unchanged, hlast,
    h₃.state_of_unchanged hlast⟩

/-- Few recoveries at a time, and no regard for whether the primary is active. -/
def Allocator.hasty : Allocator where
  settings := { nodeConcurrentRecoveries := 1, nodeInitialPrimariesRecoveries := 1 }
  deciders := [.throttling, .sameShard]

/-- A trigger that has nothing to take into account. -/
def Trigger.idle : Trigger := { reason := "idle", time := ⟨0, 0⟩ }

theorem Trigger.quiet_idle : Trigger.idle.Quiet := ⟨rfl, rfl, rfl⟩

/-- One member without a reported disk. -/
def oneMember : Membership := SortedMap.ofList [("b", none)]

/-- The member with the primary leaves, and the replica that takes over has no other node for a
replica of its own. -/
theorem reachable_settles_left : ∃ r r₁ r₂ r₃,
    Allocator.hasty.reroute (filledCluster.withMembers oneMember)
      { reason := "left", time := ⟨0, 0⟩ } = .ok r ∧
    Allocator.hasty.reroute r.state .idle = .ok r₁ ∧
    Allocator.hasty.reroute r₁.state .idle = .ok r₂ ∧
    Allocator.hasty.reroute r₂.state { reason := "later", time := ⟨9, 0⟩ } = .ok r₃ ∧
    (r₁.transitions = [] ∧ r₁.state.table = r.state.table) ∧
    (r₂.transitions = [] ∧ r₂.state.table = r.state.table) ∧
    (r₂.changed = false ↔ r₁.state.RecordsPrimaries) ∧
    (r₂.changed = false → r₂.state = r₁.state) ∧ r₃.changed = false ∧ r₃.state = r₂.state :=
  reachable_settles (standardReachable_filledCluster.step (.members _) trivial).reachable rfl
    (by simp [Allocator.hasty]) (by simp [Allocator.hasty, Decider.standard]) _
    Trigger.quiet_idle Trigger.quiet_idle ⟨rfl, rfl, rfl⟩

/-! ### A full history -/

/-- Replicas wait until their primary is active. -/
def Allocator.patient (recoveries : Nat) : Allocator where
  settings := { nodeConcurrentRecoveries := recoveries, nodeInitialPrimariesRecoveries := 1 }
  deciders := [.throttling, .replicaAfterPrimaryActive, .sameShard]

namespace ClusterState

/-- The snapshot after a pass, or the same one if the pass ends with a fault. -/
def under (s : ClusterState) (a : Allocator) (t : Trigger) : ClusterState :=
  match a.reroute s t with
  | .ok r => r.state
  | .error _ => s

/-- The snapshot with one more index, or the same one if it cannot be declared. -/
def declaring (s : ClusterState) (m : IndexMetadata) : ClusterState :=
  match s.withIndex m ⟨0, 0⟩ with
  | .ok u => u
  | .error _ => s

theorem under_eq {s : ClusterState} {a : Allocator} {t : Trigger} {r : RerouteResult}
    (h : a.reroute s t = .ok r) : s.under a t = r.state := by
  rw [under, h]

/-- Passes that give different reasons why a replica waits, in turn. -/
def wavering (s : ClusterState) : Nat → ClusterState
  | 0 => s
  | n + 1 => ((s.wavering n).under .hasty .idle).under (.patient 1) .idle

end ClusterState

namespace Reachable

variable {s u : ClusterState} {e : Event}

theorem step (h : Reachable s) (hstep : Step s e u) : Reachable u := by
  obtain ⟨es, hrun⟩ := h
  exact ⟨_, hrun.step hstep⟩

theorem under (h : Reachable s) (a : Allocator) (t : Trigger) : Reachable (s.under a t) := by
  unfold ClusterState.under
  split
  next r hr => exact h.step (.pass hr)
  next => exact h

theorem declaring (h : Reachable s) (m : IndexMetadata) : Reachable (s.declaring m) := by
  unfold ClusterState.declaring
  split
  next u hu => exact h.step (.create hu)
  next => exact h

theorem wavering (h : Reachable s) (n : Nat) : Reachable (s.wavering n) := by
  induction n with
  | zero => exact h
  | succ n ih => exact (ih.under .hasty .idle).under (.patient 1) .idle

end Reachable

/-- A started primary on one of two members. -/
def lonelyCluster : ClusterState :=
  ((((ClusterState.initial.withMembers oneMember).declaring ⟨"t", 1, 1⟩).under (.patient 1)
    .idle).under (.patient 1) { Trigger.idle with started := [⟨⟨"t", 0⟩, "b"⟩] }).withMembers
      twoMembers

/-- Two more primaries keep both members busy, so nothing else is placed.  The history of the
shard `[s][0]` has one attempt for its primary, the oldest one, and room for one attempt. -/
def crowdedCluster : ClusterState :=
  ((((lonelyCluster.declaring ⟨"p", 2, 0⟩).declaring ⟨"s", 1, 1⟩).under (.patient 1)
    .idle).wavering 6).under .hasty .idle

theorem reachable_crowdedCluster : Reachable crowdedCluster := by
  have hinitial : Reachable .initial := ⟨[], .refl⟩
  have hone := ((hinitial.step (.members oneMember)).declaring ⟨"t", 1, 1⟩).under (.patient 1) .idle
  have hlonely : Reachable lonelyCluster := (hone.under _ _).step (.members twoMembers)
  have hwaiting := ((hlonely.declaring ⟨"p", 2, 0⟩).declaring ⟨"s", 1, 1⟩).under (.patient 1) .idle
  exact (hwaiting.wavering 6).under .hasty .idle

/-- With room for another recovery a replica of `t` is placed, and the one of `[s][0]` waits for
two more reasons.  The second of them drops the only attempt for the primary of the shard, so the
next pass has it to record again. -/
theorem not_settles_of_full : Reachable crowdedCluster ∧
    ∃ r r₁ r₂, (Allocator.patient 2).reroute crowdedCluster .idle = .ok r ∧
      (Allocator.patient 2).reroute r.state .idle = .ok r₁ ∧
      (Allocator.patient 2).reroute r₁.state .idle = .ok r₂ ∧ r₂.changed = true := by
  have hset : (Allocator.patient 2).settings.validate = .ok () := rfl
  have hsame : Decider.sameShard ∈ (Allocator.patient 2).deciders := by simp [Allocator.patient]
  have hds : (Allocator.patient 2).deciders ⊆ Decider.standard := by
    simp [Allocator.patient, Decider.standard]
  have hwf := reachable_crowdedCluster.wellFormed
  obtain ⟨r, p, m, q, hr, hfirst⟩ := Allocator.exists_reroute hwf hset hsame .idle
  obtain ⟨r₁, p₁, m₁, q₁, hr₁, h₁⟩ := Allocator.exists_reroute hfirst.wellFormed hset hsame .idle
  obtain ⟨r₂, p₂, m₂, q₂, hr₂, h₂⟩ := Allocator.exists_reroute h₁.wellFormed hset hsame .idle
  have hrepeat₁ := hfirst.repeats_next h₁ hds (hfirst.exhausted_last hds) Trigger.quiet_idle
  have hrepeat₂ := h₁.repeats_next h₂ hds (hrepeat₁.exhausted_last hds) Trigger.quiet_idle
  have hdropped : ¬((crowdedCluster.under (.patient 2) .idle).under
      (.patient 2) .idle).RecordsPrimaries := by decide +kernel
  rw [ClusterState.under_eq hr, ClusterState.under_eq hr₁,
    ← hrepeat₁.changed_eq_false_iff h₁ h₂ hds hrepeat₂, Bool.not_eq_false] at hdropped
  exact ⟨reachable_crowdedCluster, r, r₁, r₂, hr, hr₁, hr₂, hdropped⟩

end ShardAllocation
