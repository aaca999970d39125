/-
Relocations in the course of a pass.

A pass makes its changes by mutations of the working view, and a run of changes is a path of
mutations: a change that consists of two, such as a primary that fails and the replica that takes
over, is two steps of it.  An operator may end a move at either of its nodes, and both commands call
the same move back.

* `Runs.working` — what a run of changes leaves is a working view;
* `execute_cancel_eq` — a command that ends a move, at its source or at its target.
-/
import ShardAllocation.Proofs.Pass.Phases
import ShardAllocation.Proofs.Routing.Relocation

namespace ShardAllocation

namespace View

variable {v : View} {m : Metadata} {ch : Change}

theorem Sound.tidy (h : v.Sound m) (hcovers : v.Covers fun k => v.isLive k = true) : v.Tidy m where
  consistent := h.consistent
  shaped := h.shaped
  covers := hcovers
  declared s hpos := Metadata.knows_of_capacity_pos (Nat.lt_of_lt_of_le hpos (h.room s))

/-- A change that fits a sound view is one mutation of it, or two. -/
theorem Sound.path (h : v.Sound m) (hfit : ch.Fits m v) :
    Path m (fun _ => True) v (ch.onView v) := by
  have hv := h.consistent
  cases ch with
  | start c n =>
    exact Path.refl.step (o := .start c.shard n) trivial (start_eq hv hfit.1 hfit.2) trivial
  | cancel c n =>
    exact Path.refl.step (o := .cancelRelocation c.shard n) trivial
      (Pass.cancelRelocation_onView hv hfit.1 hfit.2) trivial
  | relocate c n target =>
    obtain ⟨hc, hs, hnone, -⟩ := hfit
    exact Path.refl.step (o := .relocate c.shard n target) trivial
      (relocate_eq hv hc hs hnone) trivial
  | release c n info =>
    exact Path.refl.step (o := .unassign c.shard n info) trivial
      (unassign_eq hv hfit.1 hfit.2 info) trivial
  | surrender c n info =>
    obtain ⟨hc, ht, hprim⟩ := hfit
    have hreleased : Path m (fun _ => True) v (v.release n c info) :=
      Path.refl.step (o := .unassign c.shard n info) trivial (unassign_eq hv hc ht info) trivial
    have hnone : (v.release n c info).primary? c.shard = none :=
      h.primary?_vacate hc hprim (.unassigned c.shard n info.reason)
    obtain ⟨o, ho⟩ := promoteReplica_run (hv.release hc) hnone
    exact hreleased.step (o := .promoteReplica c.shard) trivial (bind_ok ho) trivial
  | handOver c n =>
    obtain ⟨hc, ht, hprim, -⟩ := hfit
    have hdropped : Path m (fun _ => True) v ((v.vacate n c).noted (.dropped c.shard n)) :=
      Path.refl.step (o := .drop c.shard n) trivial (drop_eq hv hc ht) trivial
    obtain ⟨o, ho⟩ := promoteReplica_run (hv.drop hc) (h.primary?_vacate hc hprim _)
    exact hdropped.step (o := .promoteReplica c.shard) trivial (bind_ok ho) trivial
  | install c n =>
    obtain ⟨hmem, hn, -⟩ := hfit
    exact Path.refl.step (o := .place c n) trivial (place_eq hmem (hv.waiting c hmem) hn) trivial
  | create c n =>
    obtain ⟨hs, hshaped, -, hroom, hn, -⟩ := hfit
    have hknown := Metadata.knows_of_capacity_pos (Nat.zero_lt_of_lt hroom)
    have hqueued : Path m (fun _ => True) v (v.queue c) :=
      Path.refl.step (o := .addUnassigned c) ⟨hknown, hshaped⟩ (addUnassigned_eq hs) trivial
    have hmem : c ∈ (v.queue c).unassigned := List.mem_append_right _ (List.mem_singleton_self c)
    exact hqueued.step (o := .place c n) trivial (place_eq hmem hs hn) trivial
  | forget n =>
    exact Path.refl.step (o := .removeNode n) hfit.1 (removeNode_eq hfit.2) trivial
  | record s a => exact .refl

end View

namespace Pass

variable {p q : Pass} {s : ShardId} {n k : NodeId} {c : Copy} {v : View}

/-- The working views of a pass: those that its mutations can make of the view with which it
begins. -/
def Working (p : Pass) (v : View) : Prop :=
  View.Path p.state.metadata (fun _ => True) p.view v

/-- Whatever a run of changes leaves is a working view. -/
theorem Runs.working {G : Pass → Change → Prop} (h : Runs G p q) (hp : p.Sound) :
    p.Working q.view := by
  refine h.invariant_of_sound hp (I := fun r => p.Working r.view) .refl ?_
  intro r ch hrun hr hpath hfit _
  refine View.Path.trans hpath ?_
  rw [← hrun.frame.1]
  exact hr.view.path hfit

theorem working_of_phases (hp : p.Sound) {ds : List Decider} {t : Trigger}
    {os : List CommandOutcome} (h : Allocator.phases ds t p = .ok os q) : p.Working q.view := by
  obtain ⟨m, l, k, hcourse⟩ := (phases_leads hp ds t).of_ok h
  -- which changes the policy admits does not matter
  have hfirst : Runs (fun _ _ => True) p m := hcourse.completes.mono fun _ _ _ => trivial
  have hrest : Runs (fun _ _ => True) m q := hcourse.admits.mono fun _ _ _ => trivial
  exact (hfirst.trans hrest).working hp

/-! ### Commands that end a move -/

/-- A command that ends what a copy on a member is doing is carried out as it was planned. -/
theorem execute_cancel_eq {allow : Bool} (ds : List Decider)
    (hknown : p.state.metadata.knows s = true) (hlive : p.view.isLive n = true)
    (hc : p.view.copyOn? s n = some c)
    (hplan : cancelPlan c s n allow = .ok (.cancelRelocation k))
    (hrun : View.cancelRelocation s k p.view = .ok () v) :
    execute ds (.cancel s n allow) p =
      .ok ⟨.cancel s n allow, none⟩ { p with view := v } := by
  have hplanned : plan ds p (.cancel s n allow) = .ok (.cancelRelocation k) := by
    have hheld : heldCopy p.view s n = .ok c := by simp only [heldCopy, hc]
    have hmember : checkLive p.view n = .ok () := if_pos hlive
    simp only [plan, Command.shard, hknown, Bool.not_true, Bool.false_eq_true, if_false]
    show (checkLive p.view n >>= fun _ =>
      heldCopy p.view s n >>= fun c => cancelPlan c s n allow) = _
    rw [hmember, hheld]
    exact hplan
  have hcarried : carryOut s (.cancelRelocation k) p = .ok () { p with view := v } := by
    simp only [carryOut, mutate, hrun]
  rw [execute, bind_ok (get_eq p), hplanned]
  exact bind_ok hcarried

end Pass

end ShardAllocation
