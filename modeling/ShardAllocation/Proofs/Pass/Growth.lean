/-
How a pass grows while it places copies.

The changes that place copies take none off its node.  So what a pass was at one point of
such a run tells something about everything that comes after it.

* `Pass.Grown`, `Runs.grown` — a later pass of the run has grown from an earlier one;
* `Once` — what was the case at some point of the run.
-/
import ShardAllocation.Proofs.Pass.Leads
import ShardAllocation.Proofs.Routing.Growth

namespace ShardAllocation

/-- A step that is noted does not count against growth. -/
theorem View.Grown.noted {v w : View} (h : v.Grown w) (t : Transition) : v.Grown (w.noted t) :=
  ⟨h.live, h.layout, h.waiting, h.slots⟩

namespace Pass

variable {p q r : Pass} {P : Policy} {ch : Change} {φ : Pass → Prop}

/-- A pass after another one of the same run, when slots were only filled or added and started
copies only began to move. -/
structure Grown (p q : Pass) : Prop where
  view : p.view.Grown q.view
  state : q.state = p.state
  settings : q.settings = p.settings

namespace Grown

theorem of_view (h : q.view = p.view) (hstate : q.state = p.state)
    (hsettings : q.settings = p.settings) : p.Grown q :=
  ⟨h ▸ .refl _, hstate, hsettings⟩

theorem trans (h : p.Grown q) (h' : q.Grown r) : p.Grown r :=
  ⟨h.view.trans h'.view, h'.state.trans h.state, h'.settings.trans h.settings⟩

end Grown

/-- The changes that place copies do no more than that. -/
theorem grown_apply (hp : p.Sound) (hfit : ch.Fits p.state.metadata p.view)
    (hplaces : P.Places p ch) : p.Grown (ch.apply p) := by
  refine ⟨?_, rfl, rfl⟩
  have hv := hp.view.consistent
  cases ch with
  | relocate c n target =>
    obtain ⟨hc, hs, hempty, -⟩ := hfit
    exact (hv.grown_depart hc hs hempty).noted _
  | install c n => exact (hv.grown_occupy hfit.1 hfit.2.1).noted _
  | create c n =>
    obtain ⟨hs, -, -, -, hn, -⟩ := hfit
    exact (hv.grown_create hs hn).noted _
  | record s a => exact .refl _
  | _ => exact hplaces.2.elim

theorem Runs.grown (h : Runs P.Places p q) (hp : p.Sound) : p.Grown q :=
  h.invariant_of_sound hp (.of_view rfl rfl rfl) fun _ _ _ hr hgrown hfit hplaces =>
    hgrown.trans (grown_apply hr hfit hplaces)

/-- At some point of a run that places copies, `φ` was the case. -/
def Once (P : Policy) (p q : Pass) (φ : Pass → Prop) : Prop :=
  ∃ u, Runs P.Places p u ∧ Runs P.Places u q ∧ φ u

theorem once_last (h : Runs P.Places p q) (hφ : φ q) : Once P p q φ := ⟨q, h, .refl, hφ⟩

theorem Once.trans (h : Once P p q φ) (hmore : Runs P.Places q r) : Once P p r φ := by
  obtain ⟨u, hbefore, hafter, hφ⟩ := h
  exact ⟨u, hbefore, hafter.trans hmore, hφ⟩

theorem Once.after (h : Once P q r φ) (hearlier : Runs P.Places p q) : Once P p r φ := by
  obtain ⟨u, hbefore, hafter, hφ⟩ := h
  exact ⟨u, hearlier.trans hbefore, hafter, hφ⟩

end Pass

end ShardAllocation
