/-
What a change of the working view has done if it succeeded.

On a consistent view every change succeeds under one condition and has one effect, so that its
success can be read backwards: the copy was there, in the state that the step is for, and the view
is now what `Routing.Effect` makes of it.  `Effect` lists the changes with their conditions and
effects, and what all of them keep follows by its cases, without looking at a mutation again.

* `Operation.run_eq_ok_iff` — a change succeeds exactly with its effect;
* `Effect.live`, `Effect.covers`, `Effect.shaped`, `Effect.slotCount_le` — what changes keep;
* `Effect.relocating` — a copy that moves before and after a change was at most promoted.
-/
import ShardAllocation.Proofs.Pass.Change
import ShardAllocation.Proofs.Routing.Atomicity

namespace ShardAllocation

namespace View

variable {v w : View} {s : ShardId} {n m : NodeId} {c : Copy} {info : UnassignedInfo}

/-! ### What succeeds begins with its copy -/

theorem expectCopy_ok (h : expectCopy s n v = .ok c w) : v.copyOn? s n = some c := by
  rw [expectCopy, bind_ok (get_eq v)] at h
  cases hc : v.copyOn? s n with
  | none =>
    simp only [hc, broken_eq] at h
    cases h
  | some d =>
    simp only [hc] at h
    cases h
    rfl

/-- A change that begins with a step of the copy on a node found one that admits the step. -/
theorem exists_of_step {α β : Type} {g : Copy → Except Fault β} {f : Copy → β → Mutation α} {a : α}
    (h : (expectCopy s n >>= fun c => attempt (g c) >>= f c) v = .ok a w) :
    ∃ c d, v.copyOn? s n = some c ∧ g c = .ok d := by
  obtain ⟨c, x, hexpect, h⟩ := exists_of_bind_ok h
  obtain ⟨d, y, hattempt, -⟩ := exists_of_bind_ok h
  refine ⟨c, d, expectCopy_ok hexpect, ?_⟩
  cases hg : g c with
  | ok e =>
    rw [attempt_eq hg] at hattempt
    cases hattempt
    rfl
  | error e =>
    rw [attempt_fails hg] at hattempt
    cases hattempt

theorem start_ok (hrun : View.start s n v = .ok () w) :
    ∃ c, v.copyOn? s n = some c ∧ c.state = .initializing := by
  obtain ⟨c, d, hc, hd⟩ := exists_of_step hrun
  exact ⟨c, hc, (Copy.start_eq_ok_iff.mp hd).1⟩

theorem relocate_ok (h : v.Consistent) (hrun : View.relocate s n m v = .ok () w) :
    ∃ c, v.copyOn? s n = some c ∧ c.state = .started ∧ v.copyOn? s m = none := by
  obtain ⟨c, d, hc, hd⟩ := exists_of_step hrun
  obtain ⟨rfl, -⟩ := h.own hc
  have hs : c.state = .started := (Copy.relocate_eq_ok_iff.mp hd).1
  refine ⟨c, hc, hs, ?_⟩
  cases hm : v.copyOn? c.shard m with
  | none => rfl
  | some t =>
    obtain ⟨e, he⟩ := relocate_fails h hc hs hm
    rw [he] at hrun
    cases hrun

theorem cancelRelocation_ok (hrun : View.cancelRelocation s n v = .ok () w) :
    ∃ c, v.copyOn? s n = some c ∧ c.state = .relocating := by
  obtain ⟨c, d, hc, hd⟩ := exists_of_step hrun
  exact ⟨c, hc, (Copy.cancelRelocation_eq_ok_iff.mp hd).1⟩

theorem unassign_ok (hrun : View.unassign s n info v = .ok () w) :
    ∃ c, v.copyOn? s n = some c ∧ c.isRelocationTarget = false := by
  obtain ⟨c, d, hc, hd⟩ := exists_of_step hrun
  exact ⟨c, hc, (Copy.unassign_eq_ok_iff.mp hd).2.1⟩

theorem drop_ok (hrun : View.drop s n v = .ok () w) :
    ∃ c, v.copyOn? s n = some c ∧ c.isRelocationTarget = false := by
  obtain ⟨c, x, hexpect, h⟩ := exists_of_bind_ok hrun
  refine ⟨c, expectCopy_ok hexpect, Bool.eq_false_iff.mpr fun ht => ?_⟩
  simp only [ht, if_true] at h
  rw [bind_error (broken_eq _ x)] at h
  cases h

theorem place_ok (h : v.Consistent) (hrun : View.place c n v = .ok () w) :
    c ∈ v.unassigned ∧ v.copyOn? c.shard n = none := by
  by_cases hmem : c ∈ v.unassigned
  · refine ⟨hmem, ?_⟩
    cases hn : v.copyOn? c.shard n with
    | none => rfl
    | some d =>
      obtain ⟨e, he⟩ := place_fails hmem (h.waiting c hmem) hn
      rw [he] at hrun
      cases hrun
  · rw [View.place, bind_ok (get_eq v)] at hrun
    simp only [hmem, not_false_eq_true, if_true] at hrun
    rw [bind_error (broken_eq _ v)] at hrun
    cases hrun

theorem promoteReplica_ok {o : Option NodeId} (hrun : View.promoteReplica s v = .ok o w) :
    v.primary? s = none := by
  cases hp : v.primary? s with
  | none => rfl
  | some primary =>
    rw [View.promoteReplica, bind_ok (get_eq v)] at hrun
    simp only [hp, broken_eq] at hrun
    cases hrun

theorem addUnassigned_ok (hrun : View.addUnassigned c v = .ok () w) : c.state = .unassigned := by
  by_contra hs
  have hwaits : c.isUnassigned = false := by simpa [Copy.isUnassigned] using hs
  rw [View.addUnassigned] at hrun
  simp only [hwaits, Bool.not_false, if_true] at hrun
  rw [bind_error (broken_eq _ v)] at hrun
  cases hrun

theorem removeNode_ok (hrun : View.removeNode n v = .ok () w) (s : ShardId) :
    v.copyOn? s n = none := by
  cases hc : v.copyOn? s n with
  | none => rfl
  | some c =>
    obtain ⟨e, he⟩ := removeNode_fails hc
    rw [he] at hrun
    cases hrun

end View

namespace Operation

variable {v w : View} {o : Operation} {s : ShardId} {n : NodeId} {c d : Copy}

/-! ### All changes -/

/-- The changes that succeed on a view, each with its condition and with what it makes of the
view. -/
inductive Effect (v : View) : Operation → View → Prop where
  | place {c : Copy} {n : NodeId} : c ∈ v.unassigned → v.copyOn? c.shard n = none →
    Effect v (.place c n) (v.install n c)
  | start {c : Copy} {n : NodeId} : v.copyOn? c.shard n = some c → c.state = .initializing →
    Effect v (.start c.shard n) ((v.settle n c).noted (.started c.shard n))
  | relocate {c : Copy} {n m : NodeId} : v.copyOn? c.shard n = some c → c.state = .started →
    v.copyOn? c.shard m = none →
    Effect v (.relocate c.shard n m)
      ((v.depart n m c).noted (.relocationStarted c.shard n m c.primary))
  | cancelRelocation {c : Copy} {n m : NodeId} : v.copyOn? c.shard n = some c →
    c.state = .relocating → c.peer = some m →
    Effect v (.cancelRelocation c.shard n)
      ((v.settle n c).noted (.relocationCancelled c.shard n m))
  | unassign {c : Copy} {n : NodeId} {info : UnassignedInfo} : v.copyOn? c.shard n = some c →
    c.isRelocationTarget = false → Effect v (.unassign c.shard n info) (v.release n c info)
  | drop {c : Copy} {n : NodeId} : v.copyOn? c.shard n = some c → c.isRelocationTarget = false →
    Effect v (.drop c.shard n) ((v.vacate n c).noted (.dropped c.shard n))
  | promoteReplica {s : ShardId} : v.primary? s = none →
    Effect v (.promoteReplica s) (v.takeOver s)
  | addUnassigned {c : Copy} : c.state = .unassigned → Effect v (.addUnassigned c) (v.queue c)
  | removeNode {n : NodeId} : (∀ s, v.copyOn? s n = none) → Effect v (.removeNode n) (v.forget n)

theorem Effect.run_eq (e : Effect v o w) (h : v.Consistent) : o.run v = .ok () w := by
  cases e with
  | place hmem hn => exact View.place_eq hmem (h.waiting _ hmem) hn
  | start hc hs => exact View.start_eq h hc hs
  | relocate hc hs hm => exact View.relocate_eq h hc hs hm
  | cancelRelocation hc hs hp => exact View.cancelRelocation_eq h hc hs hp
  | unassign hc ht => exact View.unassign_eq h hc ht _
  | drop hc ht => exact View.drop_eq h hc ht
  | promoteReplica hp =>
    obtain ⟨o, ho⟩ := View.promoteReplica_run h hp
    exact bind_ok ho
  | addUnassigned hs => exact View.addUnassigned_eq hs
  | removeNode hn => exact View.removeNode_eq hn

/-- What succeeds has some effect. -/
theorem exists_effect (h : v.Consistent) (hrun : o.run v = .ok () w) : ∃ x, Effect v o x := by
  cases o with
  | place c n =>
    obtain ⟨hmem, hn⟩ := View.place_ok h hrun
    exact ⟨_, .place hmem hn⟩
  | start s n =>
    obtain ⟨c, hc, hs⟩ := View.start_ok hrun
    obtain ⟨rfl, -⟩ := h.own hc
    exact ⟨_, .start hc hs⟩
  | relocate s n m =>
    obtain ⟨c, hc, hs, hm⟩ := View.relocate_ok h hrun
    obtain ⟨rfl, -⟩ := h.own hc
    exact ⟨_, .relocate hc hs hm⟩
  | cancelRelocation s n =>
    obtain ⟨c, hc, hs⟩ := View.cancelRelocation_ok hrun
    obtain ⟨rfl, -⟩ := h.own hc
    obtain ⟨m, -, hp, -⟩ := (h.linked _).target hc hs
    exact ⟨_, .cancelRelocation hc hs hp⟩
  | unassign s n info =>
    obtain ⟨c, hc, ht⟩ := View.unassign_ok hrun
    obtain ⟨rfl, -⟩ := h.own hc
    exact ⟨_, .unassign hc ht⟩
  | drop s n =>
    obtain ⟨c, hc, ht⟩ := View.drop_ok hrun
    obtain ⟨rfl, -⟩ := h.own hc
    exact ⟨_, .drop hc ht⟩
  | promoteReplica s =>
    obtain ⟨a, x, hpromote, -⟩ := exists_of_bind_ok hrun
    exact ⟨_, .promoteReplica (View.promoteReplica_ok hpromote)⟩
  | addUnassigned c => exact ⟨_, .addUnassigned (View.addUnassigned_ok hrun)⟩
  | removeNode n => exact ⟨_, .removeNode (View.removeNode_ok hrun)⟩

/-- A change succeeds exactly under its condition, and with its effect. -/
theorem run_eq_ok_iff (h : v.Consistent) : o.run v = .ok () w ↔ Effect v o w := by
  constructor
  · intro hrun
    obtain ⟨x, e⟩ := exists_effect h hrun
    have hsame := hrun.symm.trans (e.run_eq h)
    cases hsame
    exact e
  · exact fun e => e.run_eq h

namespace Effect

/-! ### What the changes keep -/

theorem consistent (e : Effect v o w) (h : v.Consistent) : w.Consistent := by
  have hrun := e.run_eq h
  rcases run_consistent h o with ⟨x, hx, hcons⟩ | ⟨f, hf⟩
  · rw [hx] at hrun
    cases hrun
    exact hcons
  · rw [hf] at hrun
    cases hrun

theorem live (e : Effect v o w) : w.live = v.live := by
  cases e with
  | place | addUnassigned | removeNode => rfl
  | @start c n | @cancelRelocation c n => exact (View.sameFrame_settle v n c).live
  | relocate => rfl
  | @unassign c n | @drop c n => exact (View.sameFrame_vacate v n c).live
  | promoteReplica => exact View.live_takeOver ..

theorem covers (e : Effect v o w) {P : NodeId → Prop} (h : v.Covers P)
    (ho : ∀ n, o = .removeNode n → ¬ P n) : w.Covers P := by
  cases e with
  | @place c n => exact h.put n (c.placedOn n)
  | @start c n | @cancelRelocation c n => exact h.settle n c
  | @relocate c n m => exact h.depart n m c
  | @unassign c n | @drop c n => exact h.vacate n c
  | promoteReplica => exact h.takeOver _
  | addUnassigned => exact h
  | removeNode => exact h.forget (ho _ rfl)

theorem shaped (e : Effect v o w) (hv : v.Consistent) (h : v.Shaped)
    (ho : ∀ c, o = .addUnassigned c → c.Shaped) : w.Shaped := by
  cases e with
  | place => exact h.occupy.noted _
  | start hc hs => exact (h.settle hc (by simp [hs])).noted _
  | relocate hc hs hm =>
    refine (h.depart hc hs ?_).noted _
    rw [(hv.own hc).2]
    intro heq
    rw [← Option.some_inj.mp heq, hc] at hm
    cases hm
  | cancelRelocation hc hs => exact (h.settle hc (by simp [hs])).noted _
  | unassign => exact (h.vacate.queue (Copy.Shaped.slot ..)).noted _
  | drop => exact h.vacate.noted _
  | @promoteReplica s =>
    rcases View.takeOver_cases hv s with ⟨-, heq⟩ | ⟨r, n, -, rfl, hr, -, -, -, heq⟩
    · rw [heq]
      exact h
    · rw [heq]
      exact ((h.promote (hv.linked _) hr).demoteSlots _).noted _
  | addUnassigned => exact h.queue (ho _ rfl)
  | removeNode hn => exact h.forget hn

/-- Only a new slot makes a shard larger. -/
theorem slotCount_le (e : Effect v o w) (h : v.Consistent) (s : ShardId) :
    w.slotCount s ≤ v.slotCount s ∨ ∃ c, o = .addUnassigned c ∧ c.shard = s := by
  rw [View.slotCount_eq, View.slotCount_eq]
  cases e with
  | place hmem hn => exact .inl (Nat.le_of_eq (View.roleCount_occupy h hmem hn s _))
  | start hc | cancelRelocation hc => exact .inl (Nat.le_of_eq (View.roleCount_settle h hc s _))
  | relocate hc hs hm => exact .inl (Nat.le_of_eq (View.roleCount_depart h hc hs hm s _))
  | unassign hc => exact .inl (Nat.le_of_eq (View.roleCount_release h hc s _))
  | drop hc =>
    have hcount := View.roleCount_vacate h hc s fun _ => true
    exact .inl (Nat.le_of_add_right_le (Nat.le_of_eq hcount))
  | @promoteReplica t =>
    rcases View.takeOver_cases h t with ⟨-, heq⟩ | ⟨r, n, -, rfl, hr, hprim, hactive, -, heq⟩
    · rw [heq]
      exact .inl (Nat.le_refl _)
    · rw [heq]
      show ((v.promote n r).demoteSlots r.shard).roleCount s _ ≤ _ ∨ _
      by_cases hs : s = r.shard
      · subst hs
        have hcount := View.roleCount_takeOver h hr hprim hactive fun _ => true
        exact .inl (by omega)
      · exact .inl (Nat.le_of_eq (View.roleCount_takeOver_of_ne h hr hs _))
  | @addUnassigned c =>
    by_cases hs : c.shard = s
    · exact .inr ⟨c, rfl, hs⟩
    · refine .inl (Nat.le_of_eq ?_)
      rw [View.roleCount_queue, Copy.share, beq_false_of_ne hs]
      rfl
  | removeNode hn => exact .inl (Nat.le_of_eq (View.roleCount_forget h hn s _))

/-- A copy that moves before and after a change is the same, but for its role, and it does not
lose the role of a primary. -/
theorem relocating (e : Effect v o w) (h : v.Consistent) (hc : v.copyOn? s n = some c)
    (hrel : c.state = .relocating) (hd : w.copyOn? s n = some d) (hstill : d.state = .relocating) :
    d = c ∨ d = c.asPrimary := by
  -- a change of another shard leaves the copy alone
  have hsame : w.copyOn? s = v.copyOn? s → d = c := fun heq =>
    Option.some_inj.mp (hd.symm.trans ((congrFun heq n).trans hc))
  have hkept : v.copyOn? s n = some d → d = c := fun hold => Option.some_inj.mp (hold.symm.trans hc)
  cases e with
  | @place e k hmem hn =>
    by_cases hs : s = e.shard
    · subst hs
      have hd : (v.occupy k e).copyOn? e.shard n = some d := hd
      rw [View.layout_occupy] at hd
      rcases Layout.fill_eq_some.mp hd with ⟨-, rfl⟩ | ⟨-, hd⟩
      · cases hstill
      · exact .inl (hkept hd)
    · exact .inl (hsame (View.copyOn?_occupy_of_ne hs))
  | @start e k he | @cancelRelocation e k m he =>
    by_cases hs : s = e.shard
    · subst hs
      have hd : (v.settle k e).copyOn? e.shard n = some d := hd
      rw [View.layout_settle] at hd
      rcases Layout.settle_eq_some.mp hd with ⟨-, rfl⟩ | ⟨-, -, hd⟩
      · cases hstill
      · exact .inl (hkept hd)
    · exact .inl (hsame (View.copyOn?_settle_of_ne hs))
  | @relocate e k m he hstarted =>
    by_cases hs : s = e.shard
    · subst hs
      have hd : (v.depart k m e).copyOn? e.shard n = some d := hd
      rw [View.layout_depart] at hd
      rcases Layout.depart_eq_some.mp hd with ⟨rfl, -⟩ | ⟨-, -, rfl⟩ | ⟨-, -, hd⟩
      · -- the copy did not move yet
        rw [hc, Option.some_inj] at he
        rw [he, hstarted] at hrel
        cases hrel
      · cases hstill
      · exact .inl (hkept hd)
    · exact .inl (hsame (View.copyOn?_depart_of_ne hs))
  | @unassign e k info he | @drop e k he =>
    by_cases hs : s = e.shard
    · subst hs
      have hd : (v.vacate k e).copyOn? e.shard n = some d := hd
      rw [View.layout_vacate] at hd
      exact .inl (hkept (Layout.vacate_eq_some.mp hd).2.2)
    · exact .inl (hsame (View.copyOn?_vacate_of_ne hs))
  | @promoteReplica t =>
    rcases View.takeOver_cases h t with ⟨-, heq⟩ | ⟨r, k, -, rfl, hr, -, -, -, heq⟩
    · exact .inl (hsame (by rw [heq]))
    · rw [heq] at hd
      by_cases hs : s = r.shard
      · subst hs
        have hd : (v.promote k r).copyOn? r.shard n = some d := hd
        rw [View.layout_promote (h.linked _) hr] at hd
        obtain ⟨e, he, rfl⟩ := Layout.promote_eq_some.mp hd
        rw [hc, Option.some_inj] at he
        subst he
        split
        · exact .inr rfl
        · exact .inl rfl
      · refine .inl (Option.some_inj.mp (hd.symm.trans ?_))
        exact (congrFun (View.copyOn?_promote_of_ne (h.linked _) hs) n).trans hc
  | addUnassigned => exact .inl (hsame rfl)
  | removeNode hn => exact .inl (hsame (View.copyOn?_forget_of_empty hn s))

end Effect

end Operation

end ShardAllocation
