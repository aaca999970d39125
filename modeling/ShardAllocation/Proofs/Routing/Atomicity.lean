/-
Changes of the working view that do not fit leave no trace.

Every change checks all that it needs before it writes: on a consistent view it either
succeeds, and the view is consistent afterwards, or it ends with a fault and the view is
what it was.  This holds for arbitrary arguments, also for shards and nodes that the view
has never heard of.  So a caller that stops at the first fault is left with a consistent
view, namely the one that the changes before it made.

* `Operation` — the changes with their arguments;
* `Operation.run_consistent` — one change;
* `Operation.runAll_consistent` — a sequence of changes that stops at the first fault.

Each change is looked at on its own (`start_atomic`, `place_atomic`, ...): where it
succeeds, its effect is known from `Routing.Mutation`, so only its refusals are new here.
-/
import ShardAllocation.Proofs.Routing.Loading
import ShardAllocation.Proofs.Routing.Mutation

namespace ShardAllocation

namespace View

/-- On the view, the change either succeeds and leaves a consistent view, or it fails and
leaves the view as it was. -/
def Atomic {α : Type} (m : Mutation α) (v : View) : Prop :=
  (∃ a w, m v = .ok a w ∧ w.Consistent) ∨ ∃ e, m v = .error e v

variable {v : View} {s : ShardId} {n m : NodeId} {c : Copy}

/-! ### Refusals -/

theorem broken_eq {α : Type} (detail : String) (v : View) :
    (broken detail : Mutation α) v = .error (.invariantViolation detail) v := rfl

theorem expectCopy_fails (hc : v.copyOn? s n = none) : ∃ e, expectCopy s n v = .error e v := by
  rw [expectCopy, bind_ok (get_eq v)]
  simp only [hc]
  exact ⟨_, broken_eq ..⟩

/-- A change that begins with the copy of a shard on a node need only be looked at where
there is one. -/
theorem atomic_of_expectCopy {α : Type} {f : Copy → Mutation α}
    (h : ∀ c, v.copyOn? s n = some c → Atomic (expectCopy s n >>= f) v) :
    Atomic (expectCopy s n >>= f) v := by
  cases hc : v.copyOn? s n with
  | some c => exact h c hc
  | none =>
    obtain ⟨e, he⟩ := expectCopy_fails hc
    exact .inr ⟨e, bind_error he⟩

/-- The copy is in no state for the step that the change begins with. -/
theorem atomic_of_refused {α β : Type} {g : Copy → Except Fault β} {f : Copy → β → Mutation α}
    {e : Fault} (hc : v.copyOn? s n = some c) (he : g c = .error e) :
    Atomic (expectCopy s n >>= fun c => attempt (g c) >>= f c) v := by
  refine .inr ⟨e, ?_⟩
  rw [bind_ok (expectCopy_eq hc)]
  exact bind_error (attempt_fails he)

/-! ### Recoveries and moves -/

theorem start_atomic (h : v.Consistent) (s : ShardId) (n : NodeId) :
    Atomic (View.start s n) v := by
  refine atomic_of_expectCopy fun c hc => ?_
  obtain ⟨rfl, -⟩ := h.own hc
  by_cases hs : c.state = .initializing
  · exact .inl ⟨(), _, start_eq h hc hs, (h.settle hc).noted _⟩
  · exact atomic_of_refused hc (if_pos hs)

theorem relocate_atomic (h : v.Consistent) (s : ShardId) (n m : NodeId) :
    Atomic (View.relocate s n m) v := by
  refine atomic_of_expectCopy fun c hc => ?_
  obtain ⟨rfl, -⟩ := h.own hc
  by_cases hs : c.state = .started
  · cases hm : v.copyOn? c.shard m with
    | none => exact .inl ⟨(), _, relocate_eq h hc hs hm, (h.depart hc hs hm).noted _⟩
    | some d => exact .inr (relocate_fails h hc hs hm)
  · exact atomic_of_refused hc (if_pos hs)

theorem cancelRelocation_atomic (h : v.Consistent) (s : ShardId) (n : NodeId) :
    Atomic (View.cancelRelocation s n) v := by
  refine atomic_of_expectCopy fun c hc => ?_
  obtain ⟨rfl, -⟩ := h.own hc
  by_cases hs : c.state = .relocating
  · -- the target is where the source says, so its removal succeeds
    obtain ⟨m, -, hp, -⟩ := (h.linked _).target hc hs
    exact .inl ⟨(), _, cancelRelocation_eq h hc hs hp, (h.settle hc).noted _⟩
  · exact atomic_of_refused hc (if_pos hs)

/-! ### A copy leaves its node -/

theorem unassign_atomic (h : v.Consistent) (s : ShardId) (n : NodeId) (info : UnassignedInfo) :
    Atomic (View.unassign s n info) v := by
  refine atomic_of_expectCopy fun c hc => ?_
  obtain ⟨rfl, -⟩ := h.own hc
  cases ht : c.isRelocationTarget with
  | false =>
    exact .inl ⟨(), _, unassign_eq h hc ht info, ((h.vacate hc).queue rfl).noted _⟩
  | true => exact atomic_of_refused hc (if_pos (by rw [ht, Bool.or_true]))

theorem drop_atomic (h : v.Consistent) (s : ShardId) (n : NodeId) :
    Atomic (View.drop s n) v := by
  refine atomic_of_expectCopy fun c hc => ?_
  obtain ⟨rfl, -⟩ := h.own hc
  cases ht : c.isRelocationTarget with
  | false => exact .inl ⟨(), _, drop_eq h hc ht, (h.vacate hc).noted _⟩
  | true =>
    refine .inr ?_
    rw [bind_ok (expectCopy_eq hc)]
    simp only [ht, if_true]
    exact ⟨_, bind_error (broken_eq ..)⟩

/-- A node that still holds a copy is not forgotten. -/
theorem removeNode_fails (hc : v.copyOn? s n = some c) :
    ∃ e, View.removeNode n v = .error e v := by
  have hheld : ((v.nodes.get? n).getD SortedMap.empty).isEmpty = false :=
    SortedMap.isEmpty_eq_false_iff.mpr ⟨s, by
      rw [SortedMap.contains, ← heldOn, ← copyOn?_eq, hc]
      rfl⟩
  rw [View.removeNode, bind_ok (get_eq v)]
  simp only [hheld, Bool.not_false, if_true]
  exact ⟨_, bind_error (broken_eq ..)⟩

theorem removeNode_atomic (h : v.Consistent) (n : NodeId) : Atomic (View.removeNode n) v := by
  by_cases hn : ∀ s, v.copyOn? s n = none
  · exact .inl ⟨(), _, removeNode_eq hn, h.forget hn⟩
  · obtain ⟨s, hs⟩ := not_forall.mp hn
    obtain ⟨c, hc⟩ := Option.ne_none_iff_exists'.mp hs
    exact .inr (removeNode_fails hc)

/-! ### Slots -/

theorem place_atomic (h : v.Consistent) (c : Copy) (n : NodeId) : Atomic (View.place c n) v := by
  by_cases hmem : c ∈ v.unassigned
  · have hs := h.waiting c hmem
    cases hn : v.copyOn? c.shard n with
    | none => exact .inl ⟨(), _, place_eq hmem hs hn, (h.occupy hn).noted _⟩
    | some d => exact .inr (place_fails hmem hs hn)
  · refine .inr ?_
    rw [View.place, bind_ok (get_eq v)]
    simp only [hmem, not_false_eq_true, if_true]
    exact ⟨_, bind_error (broken_eq ..)⟩

theorem addUnassigned_atomic (h : v.Consistent) (c : Copy) : Atomic (View.addUnassigned c) v := by
  by_cases hs : c.state = .unassigned
  · exact .inl ⟨(), _, addUnassigned_eq hs, h.queue hs⟩
  · have hwaits : c.isUnassigned = false := by simpa [Copy.isUnassigned] using hs
    refine .inr ?_
    rw [View.addUnassigned]
    simp only [hwaits, Bool.not_false, if_true]
    exact ⟨_, bind_error (broken_eq ..)⟩

/-! ### Promotion -/

theorem Consistent.takeOver (h : v.Consistent) (s : ShardId) : (v.takeOver s).Consistent := by
  rcases takeOver_cases h s with ⟨-, heq⟩ | ⟨r, n, -, -, hr, -, -, -, heq⟩
  · rw [heq]
    exact h
  · rw [heq]
    exact ((h.promote hr).demoteSlots _).noted _

theorem promoteReplica_atomic (h : v.Consistent) (s : ShardId) :
    Atomic (View.promoteReplica s) v := by
  cases hp : v.primary? s with
  | none =>
    obtain ⟨o, ho⟩ := promoteReplica_run h hp
    exact .inl ⟨o, _, ho, h.takeOver s⟩
  | some primary =>
    refine .inr ?_
    rw [View.promoteReplica, bind_ok (get_eq v)]
    simp only [hp]
    exact ⟨_, broken_eq ..⟩

end View

/-! ### All changes -/

/-- A change of the working view with its arguments. -/
inductive Operation where
  | place (c : Copy) (n : NodeId)
  | start (s : ShardId) (n : NodeId)
  | relocate (s : ShardId) (source target : NodeId)
  | cancelRelocation (s : ShardId) (source : NodeId)
  | unassign (s : ShardId) (n : NodeId) (info : UnassignedInfo)
  | drop (s : ShardId) (n : NodeId)
  | promoteReplica (s : ShardId)
  | addUnassigned (c : Copy)
  | removeNode (n : NodeId)

namespace Operation

/-- Carries the change out.  Which node a promotion chose is left out. -/
def run : Operation → Mutation Unit
  | place c n => View.place c n
  | start s n => View.start s n
  | relocate s source target => View.relocate s source target
  | cancelRelocation s source => View.cancelRelocation s source
  | unassign s n info => View.unassign s n info
  | drop s n => View.drop s n
  | promoteReplica s => discard (View.promoteReplica s)
  | addUnassigned c => View.addUnassigned c
  | removeNode n => View.removeNode n

variable {v : View}

theorem run_atomic (h : v.Consistent) (o : Operation) : View.Atomic o.run v := by
  cases o with
  | place c n => exact View.place_atomic h c n
  | start s n => exact View.start_atomic h s n
  | relocate s source target => exact View.relocate_atomic h s source target
  | cancelRelocation s source => exact View.cancelRelocation_atomic h s source
  | unassign s n info => exact View.unassign_atomic h s n info
  | drop s n => exact View.drop_atomic h s n
  | addUnassigned c => exact View.addUnassigned_atomic h c
  | removeNode n => exact View.removeNode_atomic h n
  | promoteReplica s =>
    rcases View.promoteReplica_atomic h s with ⟨o, w, hrun, hw⟩ | ⟨e, hrun⟩
    · exact .inl ⟨(), w, bind_ok hrun, hw⟩
    · exact .inr ⟨e, bind_error hrun⟩

/-- A sequence of changes that stops at its first fault leaves the consistent view that the
changes before the fault made, as if the rest had never been asked for. -/
theorem runAll_consistent (h : v.Consistent) (os : List Operation) :
    ∃ before after w, os = before ++ after ∧ before.forM run v = .ok () w ∧ w.Consistent ∧
      (after = [] ∨ ∃ e, os.forM run v = .error e w) := by
  induction os generalizing v with
  | nil => exact ⟨[], [], v, rfl, rfl, h, .inl rfl⟩
  | cons o os ih =>
    rcases run_atomic h o with ⟨⟨⟩, x, hrun, hx⟩ | ⟨e, hrun⟩
    · -- the rest starts on what this change made
      obtain ⟨before, after, w, rfl, hbefore, hw, hend⟩ := ih hx
      refine ⟨o :: before, after, w, rfl, (bind_ok hrun).trans hbefore, hw, ?_⟩
      exact hend.imp_right fun ⟨e, he⟩ => ⟨e, (bind_ok hrun).trans he⟩
    · exact ⟨[], o :: os, v, rfl, rfl, h, .inr ⟨e, bind_error hrun⟩⟩

/-- The view that a sequence of changes leaves behind when it stops at its first fault. -/
def leave (os : List Operation) (v : View) : View :=
  match os.forM run v with
  | .ok _ w => w
  | .error _ w => w

theorem consistent_leave (h : v.Consistent) (os : List Operation) : (leave os v).Consistent := by
  obtain ⟨before, after, w, rfl, hrun, hw, rfl | ⟨e, he⟩⟩ := runAll_consistent h os
  · rw [leave, List.append_nil, hrun]
    exact hw
  · rw [leave, he]
    exact hw

/-- On a consistent view a change with arbitrary arguments either succeeds and leaves a
consistent view, or fails and leaves the view exactly as it was. -/
theorem run_consistent (h : v.Consistent) (o : Operation) :
    (∃ w, o.run v = .ok () w ∧ w.Consistent) ∨ ∃ e, o.run v = .error e v := by
  rcases run_atomic h o with ⟨⟨⟩, w, hrun, hw⟩ | hfails
  · exact .inl ⟨w, hrun, hw⟩
  · exact .inr hfails

/-- A cluster with the members `a` and `b` in which a primary moves from `a` to `b`. -/
def movingView : View :=
  let slot := Copy.newUnassigned ⟨"x", 0⟩ true { reason := .indexCreated, since := ⟨0, 0⟩ }
  leave [addUnassigned slot, place slot "a", start ⟨"x", 0⟩ "a", relocate ⟨"x", 0⟩ "a" "b"]
    (View.ofMembers ["a", "b"])

theorem consistent_movingView : movingView.Consistent := by
  unfold movingView
  exact consistent_leave (View.loaded_ofMembers ["a", "b"]).consistent _

/-- The move can be completed on its target, but not called back from there. -/
theorem run_consistent_movingView :
    (∃ w, (start ⟨"x", 0⟩ "b").run movingView = .ok () w ∧ w.Consistent) ∧
      ∃ e, (cancelRelocation ⟨"x", 0⟩ "b").run movingView = .error e movingView := by
  constructor
  · rcases run_consistent consistent_movingView (start ⟨"x", 0⟩ "b") with h | ⟨e, he⟩
    · exact h
    · cases he
  · rcases run_consistent consistent_movingView (cancelRelocation ⟨"x", 0⟩ "b") with
      ⟨w, hw, -⟩ | h
    · cases hw
    · exact h

end Operation

end ShardAllocation
