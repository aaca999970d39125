/-
Where a phase of a pass leads.

`Leads F phase p Q` says that the phase, run on `p`, ends in `Q`, or with a fault, and then
only if `F` holds.  The rules follow the ways in which phases are put together.

A phase leads to a run of changes.  Which changes that may be is said by
`Policy.Completes`, for the reports of completed recoveries, which come first, and by
`Policy.Admits` for all that follows: a copy is released when it failed, is still being
filled or was lost with its node, it goes where no decider says no, and so on.  Failures and
departed nodes make only changes that clear (`Policy.Clears`), the last phases only changes
that place (`Policy.Places`); commands place copies, too, and they call copies back
(`Policy.Arranges`).  Everything that is shown of a whole pass rests on these conditions and
not on the phases themselves.

* `Leads.bind`, `leads_forM`, `leads_forM_each`, `leads_mutate` — the rules;
* `leads_change`, `cancel_leads`, `recall_leads` — mutations that make one admitted change.
-/
import ShardAllocation.Proofs.Pass.Change

namespace ShardAllocation

namespace Pass

/-- The phase ends in `Q`, or with a fault where `F` holds. -/
def Leads {α : Type} (F : Prop) (phase : Phase α) (p : Pass) (Q : α → Pass → Prop) : Prop :=
  match phase p with
  | .ok a q => Q a q
  | .error _ _ => F

variable {α β : Type} {F : Prop} {phase : Phase α} {f : α → Phase β} {p q : Pass}
variable {Q : α → Pass → Prop} {R : β → Pass → Prop}

/-! ### The rules -/

theorem leads_of_ok {a : α} (h : phase p = .ok a q) (hQ : Q a q) : Leads F phase p Q := by
  rw [Leads, h]
  exact hQ

theorem Leads.of_ok {a : α} (h : Leads F phase p Q) (hrun : phase p = .ok a q) : Q a q := by
  rwa [Leads, hrun] at h

theorem leads_of_error {e : Fault} (h : phase p = .error e q) (hF : F) : Leads F phase p Q := by
  rw [Leads, h]
  exact hF

theorem Leads.exists_ok (h : Leads F phase p Q) (hF : ¬ F) : ∃ a q, phase p = .ok a q ∧ Q a q := by
  unfold Leads at h
  split at h
  next a q heq => exact ⟨a, q, heq, h⟩
  next => exact absurd h hF

theorem leads_pure {a : α} (hQ : Q a p) : Leads F (pure a) p Q := hQ

theorem Leads.mono {Q' : α → Pass → Prop} (h : Leads F phase p Q)
    (hQ : ∀ a q, Q a q → Q' a q) : Leads F phase p Q' := by
  unfold Leads at *
  split
  next a q heq =>
    rw [heq] at h
    exact hQ a q h
  next e q heq =>
    rw [heq] at h
    exact h

theorem Leads.bind (h : Leads F phase p Q) (hf : ∀ a q, Q a q → Leads F (f a) q R) :
    Leads F (phase >>= f) p R := by
  unfold Leads at h
  split at h
  next a q heq =>
    have hrest := hf a q h
    rw [Leads] at hrest ⊢
    rw [bind_ok heq]
    exact hrest
  next e q heq => exact leads_of_error (bind_error heq) h

theorem Leads.and {Q' : α → Pass → Prop} (h : Leads F phase p Q) (h' : Leads F phase p Q') :
    Leads F phase p fun a q => Q a q ∧ Q' a q := by
  unfold Leads at *
  split
  next a q heq =>
    rw [heq] at h h'
    exact ⟨h, h'⟩
  next e q heq =>
    rw [heq] at h
    exact h

theorem leads_bind_ok {a : α} (h : phase p = .ok a q) (hf : Leads F (f a) q R) :
    Leads F (phase >>= f) p R := by
  rw [Leads, bind_ok h]
  exact hf

/-- Two steps of a phase can be taken as one. -/
theorem leads_assoc {γ : Type} {g : β → Phase γ} {R : γ → Pass → Prop}
    (h : Leads F ((phase >>= f) >>= g) p R) : Leads F (phase >>= fun a => f a >>= g) p R := by
  rw [← bind_assoc]
  exact h

/-- Reading the context hands it to the rest. -/
theorem leads_get {f : Pass → Phase β} (h : Leads F (f p) p R) : Leads F (get >>= f) p R := h

theorem leads_discard (h : Leads F phase p Q) :
    Leads F (discard phase) p fun _ q => ∃ a, Q a q := by
  have hbind : Leads F (phase >>= fun _ => pure ()) p fun _ q => ∃ a, Q a q :=
    h.bind fun a q hQ => leads_pure ⟨a, hQ⟩
  exact hbind

/-- A loop keeps what is said of the elements that are left. -/
theorem leads_forM {γ : Type} {body : γ → Phase Unit} {I : List γ → Pass → Prop} {l : List γ}
    (hI : I l p)
    (hbody : ∀ a rest q, I (a :: rest) q → Leads F (body a) q fun _ r => I rest r) :
    Leads F (l.forM body) p fun _ q => I [] q := by
  induction l generalizing p with
  | nil => exact hI
  | cons a rest ih =>
    show Leads F (body a >>= fun _ => rest.forM body) p _
    exact (hbody a rest p hI).bind fun _ q hq => ih hq

/-- A loop keeps what every step keeps. -/
theorem leads_forM_mem {γ : Type} {body : γ → Phase Unit} {I : Pass → Prop} {l : List γ}
    (hI : I p) (hbody : ∀ a ∈ l, ∀ q, I q → Leads F (body a) q fun _ r => I r) :
    Leads F (l.forM body) p fun _ q => I q := by
  have key : Leads F (l.forM body) p fun _ q => I q ∧ [] ⊆ l := by
    refine leads_forM (I := fun rest q => I q ∧ rest ⊆ l) ⟨hI, List.Subset.refl l⟩ ?_
    rintro a rest q ⟨hq, hsub⟩
    exact (hbody a (hsub List.mem_cons_self) q hq).mono fun _ r hr =>
      ⟨hr, fun x hx => hsub (List.mem_cons_of_mem a hx)⟩
  exact key.mono fun _ q hq => hq.1

/-- A loop achieves for every element what its step achieves and the later steps keep. -/
theorem leads_forM_each {γ : Type} {body : γ → Phase Unit} {I : Pass → Prop}
    {D : γ → Pass → Prop} {l : List γ} (hI : I p)
    (hbody : ∀ a ∈ l, ∀ q, I q → Leads F (body a) q fun _ r =>
      I r ∧ D a r ∧ ∀ b ∈ l, D b q → D b r) :
    Leads F (l.forM body) p fun _ q => I q ∧ ∀ a ∈ l, D a q := by
  refine (leads_forM (I := fun rest q => rest ⊆ l ∧ I q ∧ ∀ a ∈ l, a ∈ rest ∨ D a q)
    ⟨List.Subset.refl l, hI, fun a ha => .inl ha⟩ ?_).mono fun _ q hq =>
      ⟨hq.2.1, fun a ha => (hq.2.2 a ha).resolve_left List.not_mem_nil⟩
  rintro a rest q ⟨hsub, hq, hdone⟩
  refine (hbody a (hsub List.mem_cons_self) q hq).mono ?_
  rintro - r ⟨hr, ha, hkeep⟩
  refine ⟨fun b hb => hsub (List.mem_cons_of_mem a hb), hr, fun b hb => ?_⟩
  rcases hdone b hb with hmem | hd
  · rcases List.mem_cons.mp hmem with rfl | hmem
    · exact .inr ha
    · exact .inl hmem
  · exact .inr (hkeep b hb hd)

theorem leads_mutate {m : Mutation α} {a : α} {v : View} (h : m p.view = .ok a v)
    (hQ : Q a { p with view := v }) : Leads F (mutate m) p Q := by
  have hrun : mutate m p = .ok a { p with view := v } := by
    simp only [mutate, h]
  exact leads_of_ok hrun hQ

theorem leads_mutate_of_fails {m : Mutation α} (h : ∃ e, m p.view = .error e p.view) (hF : F) :
    Leads F (mutate m) p Q := by
  obtain ⟨e, h⟩ := h
  have hrun : mutate m p = .error e p := by
    simp only [mutate, h]
  exact leads_of_error hrun hF

/-! ### The changes that a pass may make -/

/-- What the changes of a pass depend on. -/
structure Policy where
  deciders : List Decider
  trigger : Trigger
  /-- The shards whose lost primary a command gives up. -/
  forced : ShardId → Prop

/-- No replica of the shard is being filled from its primary. -/
def NoRecovering (v : View) (s : ShardId) : Prop :=
  ∀ n c, v.copyOn? s n = some c → View.isRecoveringReplica c = false

/-- No decider says no to the copy on the node. -/
def Accepts (ds : List Decider) (p : Pass) (c : Copy) (n : NodeId) : Prop :=
  ∃ node, p.view.node? n = some node ∧ (Decider.allocation ds c node p false).decision ≠ .no

/-- Every decider says yes to the copy on the node. -/
def Approves (ds : List Decider) (p : Pass) (c : Copy) (n : NodeId) : Prop :=
  ∃ node, p.view.node? n = some node ∧ (Decider.allocation ds c node p false).decision = .yes

theorem Approves.accepts {ds : List Decider} {c : Copy} {n : NodeId} (h : Approves ds p c n) :
    Accepts ds p c n := by
  obtain ⟨node, hnode, hyes⟩ := h
  exact ⟨node, hnode, by rw [hyes]; decide⟩

/-- When a copy is moved from one node to another: the deciders approve of it there, and it may
not remain where it is, or the other node holds fewer copies by two at least. -/
def MayMove (ds : List Decider) (p : Pass) (c : Copy) (n k : NodeId) : Prop :=
  Approves ds p c k ∧
    ((∃ node, p.view.node? n = some node ∧
        (Decider.remaining ds c node p false).decision = .no) ∨
      ∃ source target, p.view.node? n = some source ∧ p.view.node? k = some target ∧
        target.weight + 2 ≤ source.weight)

namespace Policy

/-- A failed report names the shard. -/
def Reported (P : Policy) (s : ShardId) : Prop := ∃ r ∈ P.trigger.failed, r.shard = s

/-- A command ends what a copy of the shard is doing. -/
def Cancels (P : Policy) (s : ShardId) : Prop :=
  ∃ n allow, Command.cancel s n allow ∈ P.trigger.commands

/-- When a copy may leave its node: it is still being filled, or it is a replica that
failed or whose node left, or a primary whose node left with no replica to take over. -/
def MayRelease (P : Policy) (p : Pass) (c : Copy) (n : NodeId) : Prop :=
  c.isActive = false ∨
    (c.primary = false ∧ (P.Reported c.shard ∨ p.view.isLive n = false)) ∨
    (p.view.isLive n = false ∧ hasLiveReplica p.view c.shard = false ∧
      NoRecovering p.view c.shard)

/-- The changes that the completed recoveries of a pass make.  They all come first. -/
def Completes (P : Policy) (_ : Pass) : Change → Prop
  | .start c n => ⟨c.shard, n⟩ ∈ P.trigger.started
  | _ => False

/-- The changes that a pass may make once no more copies are started. -/
def Admits (P : Policy) (p : Pass) : Change → Prop
  | .start _ _ => False
  | .release c n _ => P.MayRelease p c n
  | .surrender c _ _ => P.Reported c.shard ∧ NoRecovering p.view c.shard
  | .handOver c _ => NoRecovering p.view c.shard
  | .install c n =>
    Accepts P.deciders p c n ∧ (isLostPrimary c = true → P.forced c.shard)
  | .relocate c _ n | .create c n => Accepts P.deciders p c n
  | _ => True

/-- The changes that fill or move no slot: copies leave their nodes, moves are called back,
and nodes are forgotten. -/
def Clears (P : Policy) (p : Pass) (ch : Change) : Prop :=
  P.Admits p ch ∧ match ch with
    | .relocate _ _ _ | .install _ _ | .create _ _ | .record _ _ => False
    | _ => True

/-- The changes that commands and the last phases make: copies are placed and move.  A copy
leaves its node, and a move is called back, only on a command. -/
def Arranges (P : Policy) (p : Pass) (ch : Change) : Prop :=
  P.Admits p ch ∧ match ch with
    | .relocate _ _ _ | .install _ _ | .create _ _ | .record _ _ => True
    | .cancel c _ => P.Cancels c.shard
    | .release c _ _ => c.isActive = false ∧ P.Cancels c.shard
    | _ => False

/-- The changes that fill and move slots, or record that none could be filled.  They wait until
every decider says yes, unlike a command. -/
def Places (P : Policy) (p : Pass) (ch : Change) : Prop :=
  P.Admits p ch ∧ match ch with
    | .relocate c n k => MayMove P.deciders p c n k
    | .install c n | .create c n => Approves P.deciders p c n
    | .record _ _ => True
    | _ => False

end Policy

/-- The changes of one shard among those that a guard admits. -/
def About (s : ShardId) (G : Pass → Change → Prop) (p : Pass) (ch : Change) : Prop :=
  G p ch ∧ ch.shard? = some s

variable {P : Policy} {s : ShardId} {ch : Change}

/-- A mutation that makes one change. -/
theorem mutate_eq {m : Mutation α} {a : α} (ch : Change)
    (hrun : m p.view = .ok a (ch.onView p.view)) (hhistory : ch.onHistory p.history = p.history) :
    mutate m p = .ok a (ch.apply p) := by
  simp only [mutate, hrun, Change.apply, hhistory]

/-- A mutation that makes one change of the policy. -/
theorem leads_change {m : Mutation α} {a : α} {G : Pass → Change → Prop} {p₀ : Pass}
    (ch : Change) (h : Runs G p₀ p) (hrun : m p.view = .ok a (ch.onView p.view))
    (hhistory : ch.onHistory p.history = p.history)
    (hfit : ch.Fits p.state.metadata p.view) (hguard : G p ch) :
    Leads F (mutate m) p fun _ q => Runs G p₀ q ∧ q = ch.apply p :=
  leads_of_ok (mutate_eq ch hrun hhistory) ⟨h.step hfit hguard, rfl⟩

theorem cancelRelocation_onView {v : View} (hv : v.Consistent) {d : Copy} {k : NodeId}
    (hd : v.copyOn? d.shard k = some d) (hrel : d.state = .relocating) :
    View.cancelRelocation d.shard k v = .ok () ((Change.cancel d k).onView v) := by
  obtain ⟨n, -, hpeer, -⟩ := (hv.linked _).target hd hrel
  rw [View.cancelRelocation_eq hv hd hrel hpeer, Change.onView, hpeer, Option.getD_some]

/-- A move is called back at its source. -/
theorem cancel_leads {G : Pass → Change → Prop} (hp : p.Sound) {d : Copy} {k : NodeId}
    (hd : p.view.copyOn? d.shard k = some d) (hrel : d.state = .relocating)
    (hguard : G p (.cancel d k)) :
    Leads F (mutate (View.cancelRelocation d.shard k)) p fun _ q =>
      Runs G p q ∧ q = (Change.cancel d k).apply p :=
  leads_change (.cancel d k) .refl (cancelRelocation_onView hp.view.consistent hd hrel) rfl
    ⟨hd, hrel⟩ hguard

/-- A move is called back on behalf of its target, which is gone afterwards. -/
theorem recall_leads {G : Pass → Change → Prop} (hp : p.Sound) {c : Copy} {n k : NodeId}
    (hc : p.view.copyOn? c.shard n = some c) (hinit : c.state = .initializing)
    (hpeer : c.peer = some k)
    (hguard : ∀ d, d.shard = c.shard → d.peer = some n → G p (.cancel d k)) :
    Leads F (mutate (View.cancelRelocation c.shard k)) p fun _ q =>
      Runs G p q ∧ q.view.copyOn? c.shard n = none := by
  have hlinked := hp.view.consistent.linked c.shard
  obtain ⟨d, hd, hrel, hback⟩ := hlinked.source hc hinit hpeer
  obtain ⟨-, -, -, -, hne⟩ := hlinked.exists_peer hd hback
  have hdshard := (hp.view.consistent.own hd).1
  have hcancel := hguard d hdshard hback
  rw [← hdshard] at hd ⊢
  refine (cancel_leads hp hd hrel hcancel).mono ?_
  rintro - q ⟨hq, rfl⟩
  refine ⟨hq, ?_⟩
  have hlayout := congrFun (View.layout_settle p.view k d) n
  refine hlayout.trans ?_
  simp [Layout.settle, hne, hback]

/-- A run that is about one shard leaves the other shards alone. -/
theorem Runs.copyOn?_of_ne {G : Pass → Change → Prop} {t : ShardId} (h : Runs (About s G) p q)
    (hp : p.Sound) (ht : t ≠ s) : q.view.copyOn? t = p.view.copyOn? t := by
  refine h.invariant_of_sound hp (I := fun r => r.view.copyOn? t = p.view.copyOn? t) rfl ?_
  rintro r ch - hr hsame hfit ⟨-, hshard⟩
  rw [← hsame]
  exact View.copyOn?_onView_of_ne hr.view.consistent hfit
    (by rw [hshard]; exact fun heq => ht (Option.some_inj.mp heq).symm)

theorem Runs.of_about {G : Pass → Change → Prop} (h : Runs (About s G) p q) : Runs G p q :=
  h.mono fun _ _ hguard => hguard.1

theorem Runs.admits_of_clears (h : Runs P.Clears p q) : Runs P.Admits p q :=
  h.mono fun _ _ hguard => hguard.1

theorem Runs.admits_of_places (h : Runs P.Places p q) : Runs P.Admits p q :=
  h.mono fun _ _ hguard => hguard.1

theorem Runs.admits_of_arranges (h : Runs P.Arranges p q) : Runs P.Admits p q :=
  h.mono fun _ _ hguard => hguard.1

theorem Runs.arranges_of_places (h : Runs P.Places p q) : Runs P.Arranges p q := by
  refine h.mono fun _ ch ⟨hadmits, hplaces⟩ => ⟨hadmits, ?_⟩
  cases ch with
  | relocate | install | create | record => trivial
  | _ => exact hplaces.elim

end Pass

end ShardAllocation
