/-
A whole pass as one run of changes.

Whatever the reports and the commands say, the phases of a pass on a sound view complete
recoveries, clear what failed or left, carry out the commands and place copies, and they
leave a view that knows members only.  They can end with a fault only when `sameShard` is not
among the deciders.

* `Placed` — what the placing phases do and what they leave undone;
* `Course` — the passes on the way: after the completed recoveries, after the reconciliation,
  after the commands and at the end;
* `intake_leads` — the phases before the commands;
* `phases_leads` — the phases take such a course.
-/
import ShardAllocation.Proofs.Pass.Balance

namespace ShardAllocation

namespace Pass

variable {p q : Pass} {ds : List Decider}

/-- The phases after the commands, which fill and move slots. -/
def placements (ds : List Decider) : Phase Unit := do
  allocateUnassigned ds
  replenishReplicas ds
  moveShards ds
  rebalance ds

theorem phases_eq (ds : List Decider) (t : Trigger) : Allocator.phases ds t = (do
    t.started.forM applyStarted
    t.failed.forM applyFailed
    reconcile
    let outcomes ← executeAll ds t.commands
    placements ds
    pure outcomes) := by
  simp only [Allocator.phases, placements, bind_assoc]

/-- The phases before the commands, which take over what the nodes report and clear the nodes
that left. -/
def intake (t : Trigger) : Phase Unit := do
  t.started.forM applyStarted
  t.failed.forM applyFailed
  reconcile

theorem phases_eq_intake (ds : List Decider) (t : Trigger) : Allocator.phases ds t = (do
    intake t
    let outcomes ← executeAll ds t.commands
    placements ds
    pure outcomes) := by
  simp only [phases_eq, intake, bind_assoc]

/-- What the placing phases make of a pass.  What they left undone had no node to go to, at
some point of their run. -/
structure Placed (P : Policy) (p q : Pass) : Prop where
  runs : Runs P.Places p q
  waits : ∀ c ∈ q.view.unassigned, Waits P p q c
  lacks : ∀ s, Lacks P p q s
  stays : ∀ n c, q.view.isLive n = true → Stays P p q n c
  balanced : Balanced P.deciders q

/-- What the phases make of a pass: they complete recoveries, clear what failed or left, carry
out commands and place copies. -/
structure Course (P : Policy) (p m l k q : Pass) : Prop where
  completes : Runs P.Completes p m
  clears : Runs P.Clears m l
  allLive : l.AllLive
  commands : Runs P.Arranges l k
  /-- Without commands nothing comes in between. -/
  uncommanded : P.trigger.commands = [] → k = l
  placed : Placed P k q

namespace Course

variable {P : Policy} {m l k : Pass}

theorem places (h : Course P p m l k q) : Runs P.Places k q := h.placed.runs

theorem admits (h : Course P p m l k q) : Runs P.Admits m q :=
  (h.clears.admits_of_clears.trans h.commands.admits_of_arranges).trans h.places.admits_of_places

/-- Once departed nodes are cleared, copies are only placed, moved and called back. -/
theorem arranges (h : Course P p m l k q) : Runs P.Arranges l q :=
  h.commands.trans h.places.arranges_of_places

theorem sound (h : Course P p m l k q) (hp : p.Sound) : l.Sound ∧ k.Sound ∧ q.Sound := by
  have hl := h.clears.sound (h.completes.sound hp)
  have hk := h.commands.sound hl
  exact ⟨hl, hk, h.places.sound hk⟩

theorem allLive_placed (h : Course P p m l k q) (hp : p.Sound) : k.AllLive :=
  h.allLive.runs (h.sound hp).1 h.commands

theorem allLive_last (h : Course P p m l k q) (hp : p.Sound) : q.AllLive :=
  (h.allLive_placed hp).runs (h.sound hp).2.1 h.places

end Course

theorem placements_leads {P : Policy} (hp : p.Sound) :
    Leads (Decider.sameShard ∉ P.deciders) (placements P.deciders) p fun _ q => Placed P p q := by
  refine (allocateUnassigned_leads (P := P) hp).bind ?_
  rintro - p₁ ⟨hallocate, hwaits⟩
  have hp₁ := hallocate.sound hp
  refine (replenishReplicas_leads (P := P) hp₁).bind ?_
  rintro - p₂ ⟨hreplenish, hlacks⟩
  have hp₂ := hreplenish.sound hp₁
  refine (moveShards_leads (P := P) hp₂).bind ?_
  rintro - p₃ ⟨hmove, hstays⟩
  have hp₃ := hmove.sound hp₂
  refine (rebalance_leads (P := P) hp₃).mono ?_
  rintro - q ⟨hbalances, hbalanced⟩
  have hbalance : Runs P.Places p₃ q :=
    hbalances.mono_of_sound hp₃ fun _ _ _ hr hfit => Balances.places hr hfit
  -- what one phase left undone is still undone after the later ones
  have hlater := hmove.trans hbalance
  have hafter := hreplenish.trans hlater
  have hbefore := hallocate.trans hreplenish
  refine ⟨hallocate.trans hafter, fun c hc => ?_, fun s => ?_, fun n c hlive => ?_, hbalanced⟩
  · exact (hwaits c ((hafter.grown hp₁).view.waiting hc)).trans hafter
  · exact ((hlacks s).after hallocate).trans hp₂ hlater
  · rw [hbalance.isLive_eq] at hlive
    exact ((hstays n c hlive).after hbefore).trans hp₃ hbalance

/-- The intake completes recoveries and clears what failed or left. -/
theorem intake_leads {F : Prop} (P : Policy) (hp : p.Sound) :
    Leads F (intake P.trigger) p fun _ l =>
      ∃ m, Runs P.Completes p m ∧ Runs P.Clears m l ∧ l.AllLive := by
  refine (forM_applyStarted_leads P hp).bind ?_
  rintro - p₁ ⟨h₁, -⟩
  have hp := h₁.sound hp
  have hfailed : Leads F (P.trigger.failed.forM applyFailed) p₁ fun _ q => Runs P.Clears p₁ q :=
    leads_forM_mem (I := fun q => Runs P.Clears p₁ q) .refl
      fun _ hr q hq => (applyFailed_leads (hq.sound hp) hr).mono fun _ _ h => hq.trans h
  refine hfailed.bind fun _ p₂ h₂ => (reconcile_leads (h₂.sound hp)).mono ?_
  rintro - p₃ ⟨hreconcile, hlive⟩
  exact ⟨p₁, h₁, h₂.trans (hreconcile.mono fun _ _ hguard => hguard.clears P), hlive⟩

theorem phases_leads (hp : p.Sound) (ds : List Decider) (t : Trigger) :
    Leads (Decider.sameShard ∉ ds) (Allocator.phases ds t) p fun outcomes q =>
      ∃ m l k, Course (Policy.ofOutcomes ds t outcomes) p m l k q := by
  rw [phases_eq_intake]
  -- before the commands no outcome is known, so the policy starts from none
  refine (intake_leads (Policy.ofOutcomes ds t []) hp).bind ?_
  rintro - l ⟨m, hcompletes, hcleared, hlive⟩
  have hl := hcleared.sound (hcompletes.sound hp)
  have hexecuted : Leads (Decider.sameShard ∉ ds) (executeAll ds t.commands) l fun outcomes q =>
      Runs (Policy.ofOutcomes ds t outcomes).Arranges l q :=
    executeAll_leads hl t (List.Subset.refl t.commands)
  have hnone : Leads (Decider.sameShard ∉ ds) (executeAll ds t.commands) l fun _ q =>
      t.commands = [] → q = l := by
    by_cases hnil : t.commands = []
    · rw [hnil]
      exact leads_pure fun _ => rfl
    · exact hexecuted.mono fun _ _ _ heq => absurd heq hnil
  have hcommands := hexecuted.and hnone
  refine hcommands.bind fun outcomes k ⟨hk, hsame⟩ => ?_
  let P := Policy.ofOutcomes ds t outcomes
  have hclears : Runs P.Clears m l := hcleared.mono fun _ _ hguard =>
    ⟨Policy.admits_ofOutcomes (List.nil_subset outcomes) hguard.1, hguard.2⟩
  have hplaced := placements_leads (P := P) (hk.sound hl)
  exact hplaced.bind fun _ q hq =>
    leads_pure ⟨m, l, k, hcompletes, hclears, hlive, hk, hsame, hq⟩

end Pass

end ShardAllocation
