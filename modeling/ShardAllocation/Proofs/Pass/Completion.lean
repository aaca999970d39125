/-
Passes that only complete recoveries and place copies.

Without failures, commands and departed nodes a pass has nothing to take in but the recoveries
that completed.  If all that are under way are among them, every copy on a node is started
afterwards: no copy initializes any longer, and a copy that moves away has a target that does.

* `Settled`, `settled_iff` — every copy on a node is started;
* `completing_leads` — the phases of such a pass complete the reported recoveries and place copies.
-/
import ShardAllocation.Proofs.Pass.Phases

namespace ShardAllocation

namespace View

variable {v : View}

/-- Every copy on a node is started. -/
def Settled (v : View) : Prop := ∀ s n c, v.copyOn? s n = some c → c.state = .started

/-- Copies that move away have targets that initialize. -/
theorem Consistent.settled_iff (h : v.Consistent) :
    v.Settled ↔ ∀ s n, (v.copyOn? s n).any (·.isInitializing) = false := by
  constructor
  · intro hsettled s n
    cases hc : v.copyOn? s n with
    | none => rfl
    | some c => simp [Copy.isInitializing, hsettled s n c hc]
  · intro hidle s n c hc
    have hinitializing : ∀ {k d}, v.copyOn? s k = some d → d.state ≠ .initializing := by
      intro k d hd hinit
      have hnone := hidle s k
      rw [hd, Option.any_some, Copy.isInitializing, hinit] at hnone
      cases hnone
    cases hs : c.state with
    | unassigned => exact absurd hs ((h.linked s).assigned hc)
    | initializing => exact absurd hs (hinitializing hc)
    | started => rfl
    | relocating =>
      obtain ⟨k, d, -, -, hd, hinit, -⟩ := (h.linked s).target hc hs
      exact absurd hinit (hinitializing hd)

end View

namespace Pass

variable {p : Pass}

/-- The phases of a pass that has no failures, no commands and no departed nodes to take in.  Every
reported recovery is complete before copies are placed. -/
theorem completing_leads (hp : p.Sound) (hlive : p.AllLive) (ds : List Decider) {t : Trigger}
    (hfailed : t.failed = []) (hcommands : t.commands = []) :
    Leads (Decider.sameShard ∉ ds) (Allocator.phases ds t) p fun _ q =>
      ∃ m, Runs (Policy.ofOutcomes ds t []).Completes p m ∧
        (∀ r ∈ t.started, (m.view.copyOn? r.shard r.node).any (·.isInitializing) = false) ∧
        Placed (Policy.ofOutcomes ds t []) m q := by
  rw [phases_eq]
  let P := Policy.ofOutcomes ds t []
  refine (forM_applyStarted_leads P hp).bind ?_
  rintro - m ⟨hm, hidle⟩
  have hnofailed : t.failed.forM applyFailed m = .ok () m := by
    rw [hfailed]
    rfl
  have hnocommands : executeAll ds t.commands m = .ok [] m := by
    rw [hcommands]
    rfl
  refine leads_bind_ok hnofailed (leads_bind_ok (hlive.runs hp hm).reconcile_eq
    (leads_bind_ok hnocommands ?_))
  have hplaced := placements_leads (P := P) (hm.sound hp)
  exact hplaced.bind fun _ q hq => leads_pure ⟨m, hm, hidle, hq⟩

end Pass

end ShardAllocation
