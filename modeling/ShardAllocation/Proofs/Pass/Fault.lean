/-
The faults that a pass can end with.

A pass is refused if its settings make no sense.  From then on the only fault is a broken
routing invariant: every step that does not apply says so, and nothing else throws.  This
holds for every snapshot, every trigger and every set of deciders.

* `OnlyViolates` — a computation has no other fault than a broken invariant; the rules for the
  ways in which phases are put together are tagged, and so is every step, so that the step
  built from them follows;
* `phases_onlyViolates` — the phases of a pass are such a computation;
* `fault_of_reroute` — the faults of a pass.
-/
import ShardAllocation.Proofs.Pass.Leads
import ShardAllocation.Reroute

namespace ShardAllocation

/-- The fault is a broken routing invariant. -/
def Fault.IsViolation (e : Fault) : Prop := ∃ detail, e = .invariantViolation detail

/-- Whatever it runs on, the computation has no other fault than a broken invariant. -/
def OnlyViolates {σ α : Type} (m : EStateM Fault σ α) : Prop :=
  ∀ x e y, m x = .error e y → e.IsViolation

namespace OnlyViolates

variable {σ α β : Type} {m n : EStateM Fault σ α} {f : α → EStateM Fault σ β}

@[grind ←] theorem of_pure (a : α) : OnlyViolates (pure a : EStateM Fault σ α) :=
  fun _ _ _ h => by cases h

@[grind ←] theorem of_get : OnlyViolates (get : EStateM Fault σ σ) := fun _ _ _ h => by cases h

@[grind ←] theorem of_set (x : σ) : OnlyViolates (set x : EStateM Fault σ PUnit) :=
  fun _ _ _ h => by cases h

@[grind ←] theorem of_modify (g : σ → σ) : OnlyViolates (modify g : EStateM Fault σ PUnit) :=
  fun _ _ _ h => by cases h

@[grind ←] theorem of_violation (detail : String) :
    OnlyViolates (throw (.invariantViolation detail) : EStateM Fault σ α) := fun _ _ _ h => by
  cases h
  exact ⟨detail, rfl⟩

@[grind ←] theorem bind (hm : OnlyViolates m) (hf : ∀ a, OnlyViolates (f a)) :
    OnlyViolates (m >>= f) := by
  intro x e y h
  cases hx : m x with
  | ok a z =>
    rw [bind_ok hx] at h
    exact hf a z e y h
  | error d z =>
    rw [bind_error hx] at h
    cases h
    exact hm x _ y hx

@[grind ←] theorem discard (hm : OnlyViolates m) : OnlyViolates (discard m) :=
  bind hm fun _ => of_pure ()

@[grind ←] theorem forM {γ : Type} {l : List γ} {g : γ → EStateM Fault σ PUnit}
    (hg : ∀ a, OnlyViolates (g a)) : OnlyViolates (l.forM g) := by
  induction l with
  | nil => exact of_pure _
  | cons a rest ih => exact bind (hg a) fun _ => ih

end OnlyViolates

/-! ### The changes of the view -/

namespace View

variable {α : Type} {s : ShardId} {n m : NodeId} {c : Copy}

@[grind ←] theorem broken_onlyViolates (detail : String) :
    OnlyViolates (broken detail : Mutation α) := .of_violation detail

@[grind ←] theorem note_onlyViolates (t : Transition) : OnlyViolates (note t) := .of_modify _

theorem attempt_onlyViolates {r : Except Fault α} (h : ∀ e, r = .error e → e.IsViolation) :
    OnlyViolates (attempt r) := by
  intro v e w hrun
  cases r with
  | ok a => cases hrun
  | error d =>
    cases hrun
    exact h _ rfl

@[grind ←] theorem attempt_place_onlyViolates (c : Copy) (n : NodeId) :
    OnlyViolates (attempt (c.place n)) :=
  attempt_onlyViolates fun e he => by
    unfold Copy.place at he
    split at he <;> cases he
    exact ⟨_, rfl⟩

@[grind ←] theorem attempt_start_onlyViolates (c : Copy) : OnlyViolates (attempt c.start) :=
  attempt_onlyViolates fun e he => by
    unfold Copy.start at he
    split at he <;> cases he
    exact ⟨_, rfl⟩

@[grind ←] theorem attempt_relocate_onlyViolates (c : Copy) (n : NodeId) :
    OnlyViolates (attempt (c.relocate n)) :=
  attempt_onlyViolates fun e he => by
    unfold Copy.relocate at he
    split at he
    · cases he
      exact ⟨_, rfl⟩
    · split at he <;> cases he
      exact ⟨_, rfl⟩

@[grind ←] theorem attempt_cancelRelocation_onlyViolates (c : Copy) :
    OnlyViolates (attempt c.cancelRelocation) :=
  attempt_onlyViolates fun e he => by
    unfold Copy.cancelRelocation at he
    split at he <;> cases he
    exact ⟨_, rfl⟩

@[grind ←] theorem attempt_unassign_onlyViolates (c : Copy) (info : UnassignedInfo) :
    OnlyViolates (attempt (c.unassign info)) :=
  attempt_onlyViolates fun e he => by
    unfold Copy.unassign at he
    split at he <;> cases he
    exact ⟨_, rfl⟩

@[grind ←] theorem attempt_promote_onlyViolates (c : Copy) : OnlyViolates (attempt c.promote) :=
  attempt_onlyViolates fun e he => by
    unfold Copy.promote at he
    split at he <;> cases he
    exact ⟨_, rfl⟩

@[grind ←] theorem expectCopy_onlyViolates (s : ShardId) (n : NodeId) :
    OnlyViolates (expectCopy s n) := by
  unfold expectCopy
  grind

@[grind ←] theorem addCopy_onlyViolates (c : Copy) : OnlyViolates (addCopy c) := by
  unfold addCopy
  grind

@[grind ←] theorem replaceCopy_onlyViolates (c : Copy) : OnlyViolates (replaceCopy c) := by
  unfold replaceCopy
  grind

@[grind ←] theorem removeCopy_onlyViolates (s : ShardId) (n : NodeId) :
    OnlyViolates (removeCopy s n) := by
  unfold removeCopy
  grind

@[grind ←] theorem removeTarget_onlyViolates (c : Copy) : OnlyViolates (removeTarget c) := by
  unfold removeTarget
  grind

@[grind ←] theorem load_onlyViolates (c : Copy) : OnlyViolates (load c) := by
  unfold load
  grind

@[grind ←] theorem place_onlyViolates (c : Copy) (n : NodeId) : OnlyViolates (View.place c n) := by
  unfold View.place
  grind

@[grind ←] theorem start_onlyViolates (s : ShardId) (n : NodeId) :
    OnlyViolates (View.start s n) := by
  unfold View.start
  grind

@[grind ←] theorem relocate_onlyViolates (s : ShardId) (n m : NodeId) :
    OnlyViolates (View.relocate s n m) := by
  unfold View.relocate
  grind

@[grind ←] theorem cancelRelocation_onlyViolates (s : ShardId) (n : NodeId) :
    OnlyViolates (View.cancelRelocation s n) := by
  unfold View.cancelRelocation
  grind

@[grind ←] theorem unassign_onlyViolates (s : ShardId) (n : NodeId) (info : UnassignedInfo) :
    OnlyViolates (View.unassign s n info) := by
  unfold View.unassign
  grind

@[grind ←] theorem drop_onlyViolates (s : ShardId) (n : NodeId) : OnlyViolates (View.drop s n) := by
  unfold View.drop
  grind

@[grind ←] theorem addUnassigned_onlyViolates (c : Copy) : OnlyViolates (addUnassigned c) := by
  unfold addUnassigned
  grind

@[grind ←] theorem removeNode_onlyViolates (n : NodeId) : OnlyViolates (removeNode n) := by
  unfold removeNode
  grind

@[grind ←] theorem promoteReplica_onlyViolates (s : ShardId) : OnlyViolates (promoteReplica s) := by
  refine .bind .of_get fun v => ?_
  split
  · grind
  · split
    · grind
    · -- the replica takes over, and with it the target of its move
      refine .bind (by grind) fun r => .bind (by grind) fun _ => ?_
      grind

theorem fault_of_ofTable {members : List NodeId} {table : RoutingTable} {e : Fault}
    (h : ofTable members table = .error e) : e.IsViolation := by
  unfold ofTable at h
  split at h
  next => cases h
  next d v hrun =>
    cases h
    have hloads : OnlyViolates (table.copies.forM load) := .forM load_onlyViolates
    exact hloads _ _ v hrun

theorem fault_of_validateShard {v : View} {most : Nat} {s : ShardId} {e : Fault}
    (h : v.validateShard most s = .error e) : e.IsViolation := by
  simp only [validateShard] at h
  split at h
  · cases h
    exact ⟨_, rfl⟩
  · split at h
    · cases h
      exact ⟨_, rfl⟩
    · split at h <;> cases h
      exact ⟨_, rfl⟩

/-- A loop of checks ends with a fault of one of the checks. -/
theorem exists_fault_of_forM {γ : Type} {f : γ → Except Fault Unit} {l : List γ} {e : Fault}
    (h : l.forM f = .error e) : ∃ a ∈ l, f a = .error e := by
  induction l with
  | nil => cases h
  | cons a rest ih =>
    rcases bind_eq_error_iff.mp h with hfirst | ⟨⟨⟩, -, hrest⟩
    · exact ⟨a, List.mem_cons_self, hfirst⟩
    · obtain ⟨b, hb, he⟩ := ih hrest
      exact ⟨b, List.mem_cons_of_mem a hb, he⟩

theorem fault_of_validate {v : View} {metadata : Metadata} {e : Fault}
    (h : v.validate metadata = .error e) : e.IsViolation := by
  simp only [validate] at h
  split at h
  · cases h
    exact ⟨_, rfl⟩
  · split at h
    · cases h
      exact ⟨_, rfl⟩
    · obtain ⟨i, -, hi⟩ := exists_fault_of_forM h
      obtain ⟨s, -, hs⟩ := exists_fault_of_forM hi
      exact fault_of_validateShard hs

end View

/-! ### The phases -/

namespace Pass

variable {ds : List Decider}

@[grind ←] theorem mutate_onlyViolates {α : Type} {m : Mutation α} (h : OnlyViolates m) :
    OnlyViolates (mutate m) := by
  intro p e q hrun
  unfold mutate at hrun
  split at hrun
  next => cases hrun
  next d v heq =>
    cases hrun
    exact h _ _ v heq

@[grind ←] theorem applyStarted_onlyViolates (r : StartedReport) :
    OnlyViolates (applyStarted r) := by
  unfold applyStarted
  grind

@[grind ←] theorem failRecoveringReplicas_onlyViolates (s : ShardId) (message : String) :
    OnlyViolates (failRecoveringReplicas s message) := by
  unfold failRecoveringReplicas
  grind

@[grind ←] theorem applyFailed_onlyViolates (r : FailedReport) : OnlyViolates (applyFailed r) := by
  unfold applyFailed
  grind

@[grind ←] theorem loseCopy_onlyViolates (c : Copy) (n : NodeId) (reason : UnassignedReason)
    (message : String) :
    OnlyViolates (loseCopy c n reason message) := by
  unfold loseCopy
  grind

@[grind ←] theorem reconcileTarget_onlyViolates (c : Copy) (n : NodeId) :
    OnlyViolates (reconcileTarget c n) := by
  unfold reconcileTarget
  grind

@[grind ←] theorem reconcileCopy_onlyViolates (c : Copy) (n : NodeId) :
    OnlyViolates (reconcileCopy c n) := by
  unfold reconcileCopy
  grind

@[grind ←] theorem reconcileNode_onlyViolates (n : NodeId) : OnlyViolates (reconcileNode n) := by
  unfold reconcileNode
  grind

@[grind ←] theorem reconcile_onlyViolates : OnlyViolates reconcile := by
  unfold reconcile
  grind

@[grind ←] theorem carryOut_onlyViolates (s : ShardId) (plan : Plan) :
    OnlyViolates (carryOut s plan) := by
  unfold carryOut
  grind

@[grind ←] theorem execute_onlyViolates (command : Command) :
    OnlyViolates (execute ds command) := by
  unfold execute
  grind

@[grind ←] theorem executeAll_onlyViolates (commands : List Command) :
    OnlyViolates (executeAll ds commands) := by
  induction commands with
  | nil => exact .of_pure []
  | cons command rest ih => exact .bind (by grind) fun _ => .bind ih fun _ => .of_pure _

@[grind ←] theorem recordAttempt_onlyViolates (s : ShardId) (a : Attempt) :
    OnlyViolates (recordAttempt s a) := .of_modify _

@[grind ←] theorem allocateCopy_onlyViolates (c : Copy) : OnlyViolates (allocateCopy ds c) := by
  unfold allocateCopy
  grind

@[grind ←] theorem allocateUnassigned_onlyViolates : OnlyViolates (allocateUnassigned ds) := by
  unfold allocateUnassigned
  grind

@[grind ←] theorem replenishShard_onlyViolates (s : ShardId) (missing : Nat) :
    OnlyViolates (replenishShard ds s missing) := by
  induction missing with
  | zero => exact .of_pure ()
  | succ missing ih =>
    unfold replenishShard
    grind

@[grind ←] theorem replenishReplicas_onlyViolates : OnlyViolates (replenishReplicas ds) := by
  unfold replenishReplicas
  grind

@[grind ←] theorem moveCopy_onlyViolates (n : NodeId) (c : Copy) :
    OnlyViolates (moveCopy ds n c) := by
  unfold moveCopy
  grind

@[grind ←] theorem moveShards_onlyViolates : OnlyViolates (moveShards ds) := by
  unfold moveShards
  grind

@[grind ←] theorem rebalanceUpTo_onlyViolates (moves : Nat) :
    OnlyViolates (rebalanceUpTo ds moves) := by
  induction moves with
  | zero => exact .of_pure ()
  | succ moves ih =>
    unfold rebalanceUpTo
    grind

@[grind ←] theorem rebalance_onlyViolates : OnlyViolates (rebalance ds) := by
  unfold rebalance
  grind

/-- The phases of a pass have no other fault than a broken invariant. -/
theorem phases_onlyViolates (ds : List Decider) (t : Trigger) :
    OnlyViolates (Allocator.phases ds t) := by
  have hreports : ∀ {m : Phase (List CommandOutcome)}, OnlyViolates m → OnlyViolates (do
      t.started.forM applyStarted
      t.failed.forM applyFailed
      reconcile
      m) := by grind
  unfold Allocator.phases
  refine hreports (.bind (executeAll_onlyViolates t.commands) fun outcomes => ?_)
  grind

end Pass

/-! ### A pass as a whole -/

theorem DiskSettings.fault_of_validate {d : DiskSettings} {e : Fault}
    (h : d.validate = .error e) : ∃ detail, e = .invalidConfig detail := by
  unfold validate at h
  split at h
  · cases h
    exact ⟨_, rfl⟩
  · split at h <;> cases h
    exact ⟨_, rfl⟩

theorem Settings.fault_of_validate {set : Settings} {e : Fault} (h : set.validate = .error e) :
    ∃ detail, e = .invalidConfig detail := by
  simp only [validate] at h
  split at h
  · cases h
    exact ⟨_, rfl⟩
  · split at h
    · cases h
      exact ⟨_, rfl⟩
    · exact DiskSettings.fault_of_validate h

/-- A pass is refused for its settings, or it found a broken invariant. -/
theorem Allocator.fault_of_reroute {a : Allocator} {s : ClusterState} {t : Trigger} {e : Fault}
    (h : a.reroute s t = .error e) :
    (∃ detail, e = .invalidConfig detail) ∨ e.IsViolation := by
  rcases bind_eq_error_iff.mp h with hset | ⟨⟨⟩, -, h⟩
  · exact .inl (Settings.fault_of_validate hset)
  · right
    rcases bind_eq_error_iff.mp h with hbegin | ⟨p, -, h⟩
    · rcases bind_eq_error_iff.mp hbegin with hview | ⟨v, -, hview⟩
      · exact View.fault_of_ofTable hview
      · cases hview
    · split at h
      next d q hphases =>
        cases h
        exact Pass.phases_onlyViolates a.deciders t p _ q hphases
      next outcomes q hphases =>
        rcases bind_eq_error_iff.mp h with hvalid | ⟨⟨⟩, -, h⟩
        · exact View.fault_of_validate hvalid
        · cases h

/-- The fault of a pass is the same for every caller. -/
theorem Allocator.duplicate_of_reroute {a : Allocator} {s : ClusterState} {t : Trigger} {e : Fault}
    (h : a.reroute s t = .error e) : e.duplicate = e := by
  rcases fault_of_reroute h with ⟨detail, rfl⟩ | ⟨detail, rfl⟩ <;> rfl

end ShardAllocation
