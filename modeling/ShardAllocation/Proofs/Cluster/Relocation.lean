/-
Relocations in the passes over reachable snapshots.

Whatever a pass has done before it relocates a copy between members, the move can be undone without
a trace, from either end, and it can be completed with no other effect than that the copy has moved.
A promotion on the way reaches both halves of the copy, so that it survives either end of the move.

* `Pass.AllOrNothing` — what a relocation in a pass owes;
* `reachable_relocation` — every relocation in a pass over a reachable snapshot owes it.
-/
import ShardAllocation.Proofs.Cluster.Reload
import ShardAllocation.Proofs.Cluster.Run
import ShardAllocation.Proofs.Pass.Relocation

namespace ShardAllocation

/-- What a relocation of the shard from `a` to `b` owes that makes the view `w` of the view `v`. -/
structure Pass.AllOrNothing (p : Pass) (v : View) (s : ShardId) (a b : NodeId) (primary : Bool)
    (w : View) : Prop where
  /-- The copy was started on `a`, and `b` had none. -/
  before : v.copyOn? s a = some (.startedOn s a primary) ∧ v.copyOn? s b = none
  /-- Calling the move back gives the view of before, but for the log. -/
  undone : View.cancelRelocation s a w =
    .ok () { v with transitions := w.transitions ++ [.relocationCancelled s a b] }
  /-- A command does so, too, whether it names the source or the target. -/
  commanded : ∀ (ds : List Decider) (history : History) (allow : Bool), ∀ n ∈ [a, b],
    execute ds (.cancel s n allow) { p with view := w, history } =
      .ok ⟨.cancel s n allow, none⟩
        { p with
          view := { v with transitions := w.transitions ++ [.relocationCancelled s a b] }
          history }
  /-- Completing the move brings the copy to `b` in its role, and does nothing else. -/
  done : ∃ x, View.start s b w = .ok () x ∧ View.Moved v s a b primary x ∧
    x.transitions = w.transitions ++ [.started s b]
  /-- If the copy is promoted while the move is in flight, it is the primary after either end. -/
  promoted : ∀ w₁ w₂ w₃, View.Path p.state.metadata (fun x => x.Moving s a b) w w₁ →
    View.promoteReplica s w₁ = .ok (some a) w₂ →
    View.Path p.state.metadata (fun x => x.Moving s a b) w₂ w₃ →
    (∃ x, View.cancelRelocation s a w₃ = .ok () x ∧
      x.copyOn? s a = some (.startedOn s a true) ∧ x.copyOn? s b = none) ∧
    ∃ x, View.start s b w₃ = .ok () x ∧
      x.copyOn? s b = some (.startedOn s b true) ∧ x.copyOn? s a = none

namespace Pass

variable {p : Pass} {v w : View} {s : ShardId} {a b : NodeId}

/-- A promotion while the move is in flight reaches both halves. -/
theorem promoted_ends {m : Metadata} {w₁ w₂ w₃ : View} (hw : w.Tidy m) (hm : w.Moving s a b)
    (h₁ : View.Path m (fun x => x.Moving s a b) w w₁)
    (hpromote : View.promoteReplica s w₁ = .ok (some a) w₂)
    (h₃ : View.Path m (fun x => x.Moving s a b) w₂ w₃) :
    (∃ x, View.cancelRelocation s a w₃ = .ok () x ∧
      x.copyOn? s a = some (.startedOn s a true) ∧ x.copyOn? s b = none) ∧
    ∃ x, View.start s b w₃ = .ok () x ∧
      x.copyOn? s b = some (.startedOn s b true) ∧ x.copyOn? s a = none := by
  have hw₁ := h₁.tidy hw
  have hw₂ : w₂.Tidy m := hw₁.step (o := .promoteReplica s) trivial (bind_ok hpromote)
  obtain ⟨hm₂, hprim₂⟩ := (h₁.last hm).promoteReplica_ok hw₁.consistent hpromote
  obtain ⟨c, hc, hprim⟩ := h₃.primary hw₂ hm₂ hprim₂
  have hundone := (h₃.last hm₂).cancelRelocation_eq (h₃.tidy hw₂) hc
  have hdone := (h₃.last hm₂).start_eq (h₃.tidy hw₂) hc
  rw [hprim] at hundone hdone
  exact ⟨hundone, hdone⟩

/-- Every relocation between members owes it, whatever led to the view. -/
theorem allOrNothing (h : v.Tidy p.state.metadata) (ha : v.isLive a = true)
    (hb : v.isLive b = true) (hrun : View.relocate s a b v = .ok () w) :
    ∃ primary, p.AllOrNothing v s a b primary w := by
  obtain ⟨c, hw⟩ := View.underway_of_relocate h hb hrun
  have hundone := View.cancelRelocation_relocate h hb hrun
  have hcopy := h.consistent.eq_startedOn h.shaped hw.held hw.started
  refine ⟨c.primary, ⟨⟨?_, hw.free⟩, hundone, ?_, View.start_relocate h hb hw.held hrun, ?_⟩⟩
  · rw [hw.held, ← hcopy]
  · intro ds history allow n hn
    have hlive : w.isLive = v.isLive := by funext k; rw [View.isLive, hw.live, View.isLive]
    have hback : (c.arriving b).peer = some a := (h.consistent.own hw.held).2
    -- the plan names the source in either case
    rcases List.mem_pair.mp hn with rfl | rfl
    · refine execute_cancel_eq ds (h.knows hw.held) ?_ hw.source ?_ hundone
      · rw [hlive, ha]
      · rfl
    · refine execute_cancel_eq ds (h.knows hw.held) ?_ hw.target ?_ hundone
      · rw [hlive, hb]
      · have ht : (c.arriving n).isRelocationTarget = true :=
          Copy.isRelocationTarget_iff.mpr ⟨rfl, by rw [hback]; rfl⟩
        rw [cancelPlan, ht, if_pos rfl, hback, Option.getD_some]
  · intro w₁ w₂ w₃ h₁ hpromote h₃
    exact promoted_ends hw.tidy hw.moving h₁ hpromote h₃

end Pass

/-- In a pass over a reachable snapshot every relocation between members that succeeds on a working
view happens completely or not at all; and what the phases of the pass leave is such a view. -/
theorem reachable_relocation {s : ClusterState} (h : Reachable s) {settings : Settings}
    {time : Instant} {p : Pass} (hbegin : Pass.begin s settings time = .ok p) :
    (∀ ds t os q, Allocator.phases ds t p = .ok os q → p.Working q.view) ∧
    ∀ v shard a b w, p.Working v → v.isLive a = true → v.isLive b = true →
      View.relocate shard a b v = .ok () w → ∃ primary, p.AllOrNothing v shard a b primary w := by
  obtain ⟨q, hq, hsound, hstate, -, -, hloaded⟩ := h.wellFormed.begin_eq settings time
  obtain rfl : p = q := Except.ok.inj (hbegin.symm.trans hq)
  refine ⟨fun ds t os q => Pass.working_of_phases hsound, fun v shard a b w hv ha hb hrun => ?_⟩
  exact Pass.allOrNothing (hv.tidy (hsound.view.tidy hloaded.covers_isLive)) ha hb hrun

/-- A third member joins two that hold the primary and the replica of `x`. -/
def roomyCluster : ClusterState :=
  filledCluster.withMembers (SortedMap.ofList [("a", none), ("b", none), ("c", none)])

/-- The replica of `x` leaves for the new member, the primary fails, and a replica takes over.
Gives the view before the last step, and the node of the new primary. -/
def moveAndFail : Mutation (View × Option NodeId) := do
  View.relocate ⟨"x", 0⟩ "b" "c"
  View.unassign ⟨"x", 0⟩ "a" ⟨.primaryFailed, ⟨0, 0⟩, none, false⟩
  let v ← get
  let promoted ← View.promoteReplica ⟨"x", 0⟩
  pure (v, promoted)

/-- The replica is promoted on its way, and completes the move as the primary. -/
theorem reachable_relocation_promoted :
    Reachable roomyCluster ∧ ∃ p w w₁ w₂ x,
      Pass.begin roomyCluster {} ⟨0, 0⟩ = .ok p ∧
      p.view.isLive "b" = true ∧ p.view.isLive "c" = true ∧
      View.relocate ⟨"x", 0⟩ "b" "c" p.view = .ok () w ∧
      View.cancelRelocation ⟨"x", 0⟩ "b" w = .ok ()
        { p.view with transitions := w.transitions ++ [.relocationCancelled ⟨"x", 0⟩ "b" "c"] } ∧
      View.promoteReplica ⟨"x", 0⟩ w₁ = .ok (some "b") w₂ ∧
      View.start ⟨"x", 0⟩ "c" w₂ = .ok () x ∧
      x.copyOn? ⟨"x", 0⟩ "c" = some (.startedOn ⟨"x", 0⟩ "c" true) ∧
      x.copyOn? ⟨"x", 0⟩ "b" = none := by
  have hreachable : Reachable roomyCluster :=
    (standardReachable_filledCluster.step (.members _) trivial).reachable
  have hrun : (Pass.begin roomyCluster {} ⟨0, 0⟩).toOption.any (fun p =>
      p.view.isLive "b" = true ∧ p.view.isLive "c" = true ∧
        (moveAndFail.run' p.view).any (fun r => r.2 = some "b" ∧
          (r.1.copyOn? ⟨"x", 0⟩ "b").any fun c =>
            c.state = .relocating ∧ c.peer = some "c") = true) = true := by
    decide +kernel
  obtain ⟨p, hbegin, hb, hc, hmoves⟩ := exists_ok_of_any hrun
  obtain ⟨⟨w₁, o⟩, hmoves, hfacts⟩ := (Option.any_eq_true _ _).mp hmoves
  obtain ⟨rfl, hmoving⟩ := of_decide_eq_true hfacts
  obtain ⟨c, hc₁, hflight⟩ := (Option.any_eq_true _ _).mp hmoving
  have hmoving : w₁.Moving ⟨"x", 0⟩ "b" "c" := ⟨c, hc₁, of_decide_eq_true hflight⟩
  -- the steps one by one
  obtain ⟨w₂, hall⟩ : ∃ w₂, moveAndFail p.view = .ok (w₁, some "b") w₂ := by
    delta EStateM.run' at hmoves
    cases hall : moveAndFail.run p.view with
    | ok r w₂ =>
      simp only [hall] at hmoves
      cases hmoves
      exact ⟨w₂, hall⟩
    | error e w₂ =>
      simp only [hall] at hmoves
      cases hmoves
  obtain ⟨⟨⟩, w, hrelocate, hall⟩ := exists_of_bind_ok hall
  obtain ⟨⟨⟩, u, hfail, hall⟩ := exists_of_bind_ok hall
  rw [bind_ok (get_eq u)] at hall
  obtain ⟨o, y, hpromote, hlast⟩ := exists_of_bind_ok hall
  cases hlast
  obtain ⟨primary, howes⟩ := (reachable_relocation hreachable hbegin).2 p.view ⟨"x", 0⟩ "b" "c" w
    .refl hb hc hrelocate
  have hpath : View.Path p.state.metadata (fun x => x.Moving ⟨"x", 0⟩ "b" "c") w w₁ :=
    View.Path.refl.step (o := .unassign ⟨"x", 0⟩ "a" ⟨.primaryFailed, ⟨0, 0⟩, none, false⟩) trivial
      hfail hmoving
  obtain ⟨-, x, hstart, hthere, hgone⟩ := howes.promoted w₁ w₂ w₂ hpath hpromote .refl
  exact ⟨hreachable, p, w, w₁, w₂, x, hbegin, hb, hc, hrelocate, howes.undone, hpromote, hstart,
    hthere, hgone⟩

end ShardAllocation
