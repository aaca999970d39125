/-
Two computations side by side, and mutations that do not read what is noted.

A mutation notes its step after those that are noted already, and does not look at these.  So on
two views that differ in the noted steps at most it does the same, and adds the same step to
both.

* `Lockstep` — two computations that keep related states together, with a rule for each way in
  which computations are put together;
* `Oblivious` — mutations that are in lockstep with themselves, whatever is noted;
* `place_oblivious`, `start_oblivious`, … — every mutation of a pass is one.
-/
import ShardAllocation.Proofs.Routing.Mutation

namespace ShardAllocation

section Rules

variable {σ α β γ δ : Type} {T : σ → σ → Prop} {R : α → β → Prop} {S : γ → δ → Prop} {s t : σ}
variable {x : EStateM Fault σ α} {y : EStateM Fault σ β}
variable {f : α → EStateM Fault σ γ} {g : β → EStateM Fault σ δ}

/-- Run on two states, the computations end with the same fault, or with related values in
related states. -/
def LockstepAt (T : σ → σ → Prop) (R : α → β → Prop) (s t : σ) (x : EStateM Fault σ α)
    (y : EStateM Fault σ β) : Prop :=
  match x s, y t with
  | .ok a s', .ok b t' => R a b ∧ T s' t'
  | .error e _, .error d _ => e = d
  | _, _ => False

/-- The computations keep related states together. -/
def Lockstep (T : σ → σ → Prop) (R : α → β → Prop) (x : EStateM Fault σ α)
    (y : EStateM Fault σ β) : Prop :=
  ∀ s t, T s t → LockstepAt T R s t x y

theorem LockstepAt.bind (h : LockstepAt T R s t x y)
    (hf : ∀ a b, R a b → Lockstep T S (f a) (g b)) :
    LockstepAt T S s t (x >>= f) (y >>= g) := by
  unfold LockstepAt at h
  split at h
  next a s' b t' hx hy =>
    rw [LockstepAt, bind_ok hx, bind_ok hy]
    exact hf a b h.1 s' t' h.2
  next e _ d _ hx hy =>
    rw [LockstepAt, bind_error hx, bind_error hy]
    exact h
  next => exact h.elim

theorem Lockstep.bind (h : Lockstep T R x y) (hf : ∀ a b, R a b → Lockstep T S (f a) (g b)) :
    Lockstep T S (x >>= f) (y >>= g) := fun s t hst => (h s t hst).bind hf

theorem lockstep_pure {a : α} {b : β} (h : R a b) :
    Lockstep T R (pure a : EStateM Fault σ α) (pure b) := fun _ _ hst => ⟨h, hst⟩

theorem lockstep_throw (e : Fault) :
    Lockstep T R (throw e : EStateM Fault σ α) (throw e) := fun _ _ _ => rfl

/-- Both sides read what they are run on. -/
theorem lockstep_get {f : σ → EStateM Fault σ γ} {g : σ → EStateM Fault σ δ}
    (h : ∀ s t, T s t → LockstepAt T S s t (f s) (g t)) :
    Lockstep T S (get >>= f) (get >>= g) := h

/-- Both sides read what related states have in common. -/
theorem lockstep_read {f : σ → EStateM Fault σ γ} {g : σ → EStateM Fault σ δ}
    (hread : ∀ s t, T s t → g t = g s) (h : ∀ s, Lockstep T S (f s) (g s)) :
    Lockstep T S (get >>= f) (get >>= g) := fun s t hst => by
  show LockstepAt T S s t (f s) (g t)
  rw [hread s t hst]
  exact h s s t hst

theorem lockstep_forM {f g : γ → EStateM Fault σ Unit} (h : ∀ a, Lockstep T Eq (f a) (g a))
    (l : List γ) : Lockstep T Eq (l.forM f) (l.forM g) := by
  induction l with
  | nil => exact lockstep_pure rfl
  | cons a rest ih => exact (h a).bind fun _ _ _ => ih

theorem Lockstep.discard (h : Lockstep T R x y) : Lockstep T Eq (discard x) (discard y) :=
  h.bind fun _ _ _ => lockstep_pure rfl

theorem Lockstep.andThen {f g : EStateM Fault σ Unit} (h : Lockstep T Eq f g)
    (hrest : Lockstep T R x y) : Lockstep T R (do f; x) (do g; y) := h.bind fun _ _ _ => hrest

end Rules

/-! ### Mutations that do not read what is noted -/

/-- The view with other steps noted. -/
def View.noting (v : View) (ts : List Transition) : View := { v with transitions := ts }

/-- The views differ in the noted steps at most, and `N` holds between these. -/
def View.SameBut (N : List Transition → List Transition → Prop) (v w : View) : Prop :=
  ∃ us, w = v.noting us ∧ N v.transitions us

/-- The mutation does the same whatever is noted: related steps are still so when it has added
its own. -/
def Oblivious {α : Type} (m : Mutation α) : Prop :=
  ∀ N : List Transition → List Transition → Prop,
    (∀ t ts us, N ts us → N (ts ++ [t]) (us ++ [t])) → Lockstep (View.SameBut N) Eq m m

namespace Oblivious

variable {α β : Type} {m : Mutation α} {f : α → Mutation β}

theorem of_pure (a : α) : Oblivious (pure a : Mutation α) := fun _ _ => lockstep_pure rfl

theorem of_throw (e : Fault) : Oblivious (throw e : Mutation α) := fun _ _ => lockstep_throw e

theorem bind (h : Oblivious m) (hf : ∀ a, Oblivious (f a)) : Oblivious (m >>= f) := fun N hN =>
  (h N hN).bind fun a _ hab => hab ▸ hf a N hN

/-- What is read does not depend on what is noted. -/
theorem read {f : View → Mutation β} (hread : ∀ v ts, f (v.noting ts) = f v)
    (h : ∀ v, Oblivious (f v)) : Oblivious (get >>= f) := fun N hN => by
  refine lockstep_read ?_ fun v => h v N hN
  rintro v _ ⟨us, rfl, -⟩
  exact hread v us

end Oblivious

namespace View

variable {α : Type} {s : ShardId} {n : NodeId}

theorem note_oblivious (t : Transition) : Oblivious (note t) := by
  rintro N hN v _ ⟨us, rfl, hus⟩
  exact ⟨rfl, us ++ [t], rfl, hN t _ _ hus⟩

theorem queue_oblivious (f : List Copy → List Copy) :
    Oblivious (modify fun v : View => { v with unassigned := f v.unassigned }) := by
  rintro N - v _ ⟨us, rfl, hus⟩
  exact ⟨rfl, us, rfl, hus⟩

theorem broken_oblivious (detail : String) : Oblivious (broken detail : Mutation α) :=
  .of_throw _

theorem attempt_oblivious (r : Except Fault α) : Oblivious (attempt r) := by
  cases r with
  | ok a => exact .of_pure a
  | error e => exact .of_throw e

theorem expectCopy_oblivious (s : ShardId) (n : NodeId) : Oblivious (expectCopy s n) := by
  refine .read (fun _ _ => rfl) fun v => ?_
  split
  · exact .of_pure _
  · exact broken_oblivious _

theorem addCopy_oblivious (c : Copy) : Oblivious (addCopy c) := by
  refine fun N _ => lockstep_get ?_
  rintro v _ ⟨us, rfl, hus⟩
  dsimp only [noting]
  split
  · exact rfl
  · split
    · exact rfl
    · exact ⟨rfl, us, rfl, hus⟩

theorem replaceCopy_oblivious (c : Copy) : Oblivious (replaceCopy c) := by
  refine fun N _ => lockstep_get ?_
  rintro v _ ⟨us, rfl, hus⟩
  dsimp only [noting]
  split
  · split
    · exact ⟨rfl, us, rfl, hus⟩
    · exact rfl
  · exact rfl

theorem removeCopy_oblivious (s : ShardId) (n : NodeId) : Oblivious (removeCopy s n) := by
  refine fun N _ => lockstep_get ?_
  rintro v _ ⟨us, rfl, hus⟩
  dsimp only [noting]
  split
  · split
    · exact ⟨rfl, us, rfl, hus⟩
    · exact rfl
  · exact rfl

theorem removeTarget_oblivious (c : Copy) : Oblivious (removeTarget c) := by
  unfold removeTarget
  split
  · split
    · exact removeCopy_oblivious _ _
    · exact .of_pure ()
  · exact .of_pure ()

theorem place_oblivious (c : Copy) (n : NodeId) : Oblivious (View.place c n) := by
  have hrest : Oblivious (do
      addCopy (← attempt (c.place n))
      modify fun v => { v with unassigned := v.unassigned.erase c }
      let v ← get
      let source := if c.primary then none else (v.activePrimary? c.shard).bind (·.node)
      note (.initialized c.shard n c.primary source)) := by
    refine (attempt_oblivious _).bind fun placed => (addCopy_oblivious placed).bind fun _ => ?_
    exact (queue_oblivious (·.erase c)).bind fun _ =>
      .read (fun _ _ => rfl) fun v => note_oblivious _
  refine .read (fun _ _ => rfl) fun v => ?_
  by_cases hmem : c ∈ v.unassigned
  · simp only [hmem, not_true, if_false]
    exact hrest
  · simp only [hmem, not_false_eq_true, if_true]
    exact (broken_oblivious _).bind fun _ => hrest

theorem start_oblivious (s : ShardId) (n : NodeId) : Oblivious (View.start s n) := by
  refine (expectCopy_oblivious s n).bind fun c => (attempt_oblivious _).bind fun started => ?_
  have hrest : Oblivious (do replaceCopy started; note (.started s n)) :=
    (replaceCopy_oblivious started).bind fun _ => note_oblivious _
  split
  · refine (expectCopy_oblivious _ _).bind fun source => ?_
    split
    · refine (broken_oblivious _).bind fun _ => ?_
      exact (removeCopy_oblivious _ _).bind fun _ => hrest
    · exact (removeCopy_oblivious _ _).bind fun _ => hrest
  · exact hrest

theorem relocate_oblivious (s : ShardId) (source target : NodeId) :
    Oblivious (View.relocate s source target) := by
  refine (expectCopy_oblivious s source).bind fun c => (attempt_oblivious _).bind fun moved => ?_
  split
  · exact broken_oblivious _
  · refine (addCopy_oblivious _).bind fun _ => (replaceCopy_oblivious _).bind fun _ => ?_
    exact note_oblivious _

theorem cancelRelocation_oblivious (s : ShardId) (source : NodeId) :
    Oblivious (View.cancelRelocation s source) := by
  refine (expectCopy_oblivious s source).bind fun c => (attempt_oblivious _).bind fun back => ?_
  refine (removeCopy_oblivious _ _).bind fun _ => (replaceCopy_oblivious _).bind fun _ => ?_
  exact note_oblivious _

theorem unassign_oblivious (s : ShardId) (n : NodeId) (info : UnassignedInfo) :
    Oblivious (View.unassign s n info) := by
  refine (expectCopy_oblivious s n).bind fun c => (attempt_oblivious _).bind fun slot => ?_
  refine (removeTarget_oblivious c).bind fun _ => (removeCopy_oblivious s n).bind fun _ => ?_
  exact (queue_oblivious (· ++ [slot])).bind fun _ => note_oblivious _

theorem drop_oblivious (s : ShardId) (n : NodeId) : Oblivious (View.drop s n) := by
  refine (expectCopy_oblivious s n).bind fun c => ?_
  have hrest : Oblivious (do removeTarget c; removeCopy s n; note (.dropped s n)) :=
    (removeTarget_oblivious c).bind fun _ => (removeCopy_oblivious s n).bind fun _ =>
      note_oblivious _
  split
  · exact (broken_oblivious _).bind fun _ => hrest
  · exact hrest

theorem addUnassigned_oblivious (c : Copy) : Oblivious (addUnassigned c) := by
  unfold addUnassigned
  split
  · exact (broken_oblivious _).bind fun _ => queue_oblivious (· ++ [c])
  · exact queue_oblivious (· ++ [c])

theorem removeNode_oblivious (n : NodeId) : Oblivious (removeNode n) := by
  refine fun N _ => lockstep_get ?_
  rintro v _ ⟨us, rfl, hus⟩
  dsimp only [noting]
  split
  · exact rfl
  · exact ⟨rfl, us, rfl, hus⟩

theorem promoteReplica_oblivious (s : ShardId) : Oblivious (promoteReplica s) := by
  refine .read (fun _ _ => rfl) fun v => ?_
  split
  · exact broken_oblivious _
  · split
    · exact .of_pure none
    next replica _ =>
      have hrest : Oblivious (do
          modify fun v : View => { v with
            unassigned := v.unassigned.map fun c =>
              if c.shard == s && c.primary then c.demote else c }
          note (.promoted s (replica.node.getD ""))
          pure (some (replica.node.getD ""))) := by
        refine (queue_oblivious (List.map _)).bind fun _ => ?_
        exact (note_oblivious _).bind fun _ => .of_pure _
      refine (attempt_oblivious _).bind fun raised => (replaceCopy_oblivious _).bind fun _ => ?_
      split
      · refine (expectCopy_oblivious _ _).bind fun target => (attempt_oblivious _).bind fun _ => ?_
        exact (replaceCopy_oblivious _).bind fun _ => hrest
      · exact hrest

end View

end ShardAllocation
