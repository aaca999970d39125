/-
What the execution of a command owes a pass.

A command that is rejected changes nothing.  One that is applied makes a single change of its
own shard: one step is noted, no slot comes or goes, and the other shards are as before.
Without permission a command neither fills the slot of a primary nor gives one up that is being
filled.

* `Layout.fresh` — the primary that is being filled on a node; calling a move back, beginning
  one and changing replicas leave it alone;
* `Handled` — what a command owes, with `execute_spec` for every command;
* `executeAll_applied` — the commands that were applied do the same without the others.
-/
import ShardAllocation.Proofs.Pass.Command
import ShardAllocation.Proofs.Pass.Log
import ShardAllocation.Proofs.Routing.Quota

namespace ShardAllocation

/-- Whether a command may fill the slot of a primary, or give it up while it is being filled. -/
def Command.allowsPrimary : Command → Bool
  | .move .. => false
  | .allocate _ _ allow => allow
  | .cancel _ _ allow => allow

/-! ### Primaries that are being filled -/

namespace Layout

/-- The copy on the node, if it is a primary that is being filled. -/
def fresh (f : Layout) (n : NodeId) : Option Copy := (f n).filter (·.isFreshPrimary)

variable {s : ShardId} {f : Layout} {n k : NodeId} {c : Copy}

theorem fresh_eq_none (hc : f n = some c) (h : c.isFreshPrimary = false) : f.fresh n = none := by
  rw [fresh, hc, Option.filter_some, h]
  rfl

/-- Neither end of a move is a primary that is being filled. -/
theorem fresh_settle (hf : Linked s f) (hc : f n = some c) (hrel : c.state = .relocating)
    (k : NodeId) : (f.settle n c).fresh k = f.fresh k := by
  by_cases hk : k = n
  · subst hk
    rw [fresh_eq_none hc (by simp [Copy.isFreshPrimary, Copy.isInitializing, hrel])]
    exact fresh_eq_none (c := c.settled) (if_pos rfl) (by simp [Copy.isFreshPrimary,
      Copy.isInitializing, Copy.settled])
  by_cases hp : c.peer = some k
  · -- the other end is the target of the move
    obtain ⟨d, hd, -⟩ := hf.exists_peer hc hp
    have ht := hf.isRelocationTarget_peer hc hp hd
    rw [Copy.isRelocationTarget_of_active (Copy.isActive_iff.mpr (.inr hrel))] at ht
    rw [fresh_eq_none hd (by simp [Copy.isFreshPrimary, ht]), fresh, settle, if_neg hk, if_pos hp]
    rfl
  · rw [fresh, fresh, settle, if_neg hk, if_neg hp]

theorem fresh_depart (hf : Linked s f) (hc : f n = some c) (hs : c.state = .started)
    (hm : f k = none) (j : NodeId) : (f.depart n k c).fresh j = f.fresh j := by
  by_cases hj : j = n
  · subst hj
    rw [fresh_eq_none hc (by simp [Copy.isFreshPrimary, Copy.isInitializing, hs])]
    exact fresh_eq_none (c := c.departing k) (if_pos rfl) (by simp [Copy.isFreshPrimary,
      Copy.isInitializing, Copy.departing])
  by_cases hk : j = k
  · subst hk
    have ht : (c.arriving j).isRelocationTarget = true :=
      Copy.isRelocationTarget_iff.mpr ⟨rfl, by rw [Copy.arriving, (hf.own hc).2]; rfl⟩
    have hthere : f.depart n j c j = some (c.arriving j) := by rw [depart, if_neg hj, if_pos rfl]
    rw [fresh_eq_none hthere (by simp [Copy.isFreshPrimary, ht]), fresh, hm]
    rfl
  · rw [fresh, fresh, depart, if_neg hj, if_neg hk]

theorem fresh_fill (hn : f n = none) (hprim : c.primary = false) (k : NodeId) :
    (f.fill n c).fresh k = f.fresh k := by
  by_cases hk : k = n
  · subst hk
    rw [fresh_eq_none (c := c) (if_pos rfl) (by simp [Copy.isFreshPrimary, hprim]), fresh, hn]
    rfl
  · rw [fresh, fresh, fill, if_neg hk]

/-- A replica goes that is no end of a move. -/
theorem fresh_vacate (hc : f n = some c) (hprim : c.primary = false) (hp : c.peer = none)
    (k : NodeId) : (f.vacate n c).fresh k = f.fresh k := by
  by_cases hk : k = n
  · subst hk
    rw [fresh_eq_none hc (by simp [Copy.isFreshPrimary, hprim]), fresh, vacate, if_pos rfl]
    rfl
  · rw [fresh, fresh, vacate, if_neg hk, hp, if_neg (by simp)]

end Layout

namespace Pass

variable {ds : List Decider} {p q : Pass} {command : Command} {ch : Change}

/-! ### The change that a command stands for -/

namespace Fulfils

theorem primary_eq_false {c : Copy} {allow : Bool} (h : c.primary = true → allow = true)
    (hallow : allow = false) : c.primary = false := by
  by_contra hc
  rw [h (Bool.not_eq_false _ ▸ hc)] at hallow
  cases hallow

/-- One step is noted. -/
theorem exists_notes (h : Fulfils ds p command ch) : ∃ x, ch.notes p.view = [x] := by
  cases h <;> exact ⟨_, rfl⟩

theorem history (h : Fulfils ds p command ch) : (ch.apply p).history = p.history := by
  cases h <;> rfl

/-- No slot comes or goes. -/
theorem slotCount (h : Fulfils ds p command ch) (hp : p.Sound)
    (hfit : ch.Fits p.state.metadata p.view) (s : ShardId) :
    (ch.apply p).view.slotCount s = p.view.slotCount s := by
  have hv := hp.view.consistent
  rw [View.slotCount_eq, View.slotCount_eq]
  cases h with
  | move => exact View.roleCount_depart hv hfit.1 hfit.2.1 hfit.2.2.1 s _
  | allocate => exact View.roleCount_occupy hv hfit.1 hfit.2.1 s _
  | cancel => exact View.roleCount_settle hv hfit.1 s _
  | release => exact View.roleCount_release hv hfit.1 s _

/-- Without permission the primary slots that wait are the same. -/
theorem waiting (h : Fulfils ds p command ch) (hallow : command.allowsPrimary = false) :
    (ch.apply p).view.unassigned.filter (·.primary) = p.view.unassigned.filter (·.primary) := by
  cases h with
  | move => rfl
  | @allocate c n allow hprim =>
    have hreplica : c.primary = false := primary_eq_false hprim hallow
    show (p.view.unassigned.erase c).filter _ = _
    rw [← List.erase_filter]
    exact List.erase_of_not_mem fun hc => by simp [hreplica] at hc
  | @cancel c n k =>
    exact congrArg (List.filter _) (View.sameFrame_settle p.view k c).unassigned
  | @release c n allow info hinit hprim =>
    have hreplica : (c.slot info).primary = false := primary_eq_false hprim hallow
    show ((p.view.vacate n c).unassigned ++ [c.slot info]).filter _ = _
    rw [(View.sameFrame_vacate p.view n c).unassigned, List.filter_append,
      List.filter_cons_of_neg (by simp [hreplica]), List.filter_nil, List.append_nil]

/-- Without permission the primaries that are being filled are the same. -/
theorem fresh (h : Fulfils ds p command ch) (hp : p.Sound)
    (hfit : ch.Fits p.state.metadata p.view) (hallow : command.allowsPrimary = false)
    (s : ShardId) (n : NodeId) :
    Layout.fresh ((ch.apply p).view.copyOn? s) n = Layout.fresh (p.view.copyOn? s) n := by
  have hv := hp.view.consistent
  by_cases hs : ch.shard? = some s
  swap
  · rw [Change.apply, View.copyOn?_onView_of_ne hv hfit hs]
  cases h with
  | @move c n k haccepts =>
    obtain rfl : c.shard = s := Option.some_inj.mp hs
    have hlayout : ((Change.relocate c n k).apply p).view.copyOn? c.shard = _ :=
      View.layout_depart p.view n k c
    rw [hlayout, Layout.fresh_depart (hv.linked _) hfit.1 hfit.2.1 hfit.2.2.1]
  | @allocate c n allow hprim haccepts =>
    obtain rfl : c.shard = s := Option.some_inj.mp hs
    have hreplica : (c.placedOn n).primary = false := primary_eq_false hprim hallow
    have hlayout : ((Change.install c n).apply p).view.copyOn? c.shard = _ :=
      View.layout_occupy p.view n c
    rw [hlayout, Layout.fresh_fill hfit.2.1 hreplica]
  | @cancel c n k allow hend =>
    obtain rfl : c.shard = s := Option.some_inj.mp hs
    have hlayout : ((Change.cancel c k).apply p).view.copyOn? c.shard = _ :=
      View.layout_settle p.view k c
    rw [hlayout, Layout.fresh_settle (hv.linked _) hfit.1 hfit.2]
  | @release c n allow info hinit hprim =>
    obtain rfl : c.shard = s := Option.some_inj.mp hs
    have hreplica : c.primary = false := primary_eq_false hprim hallow
    have hpeer : c.peer = none := by
      simpa [Copy.isRelocationTarget, Copy.isInitializing, hinit] using hfit.2
    have hlayout : ((Change.release c n info).apply p).view.copyOn? c.shard = _ :=
      View.layout_vacate p.view n c
    rw [hlayout, Layout.fresh_vacate hfit.1 hreplica hpeer]

end Fulfils

/-! ### What a command owes -/

/-- What the execution of a command that ends in the outcome `o` owes: `q` from `p`. -/
structure Handled (command : Command) (p : Pass) (o : CommandOutcome) (q : Pass) : Prop where
  named : o.command = command
  /-- A rejection changes neither the view nor the history. -/
  rejected : o.isApplied = false → q = p
  /-- A command that is applied notes one step of its shard. -/
  applied : o.isApplied = true →
    ∃ x : Transition, x.shard = command.shard ∧ q.view.transitions = p.view.transitions ++ [x]
  slots : q.view.slotCount command.shard = p.view.slotCount command.shard
  /-- The other shards are as before, and so are the attempts to place copies. -/
  others : ∀ s, s ≠ command.shard →
    q.view.copyOn? s = p.view.copyOn? s ∧ q.view.unassignedOf s = p.view.unassignedOf s
  history : q.history = p.history
  /-- Without permission no primary slot is filled or begins to wait ... -/
  waiting : command.allowsPrimary = false →
    q.view.unassigned.filter (·.primary) = p.view.unassigned.filter (·.primary)
  /-- ... and the primaries that are being filled are the same. -/
  fresh : command.allowsPrimary = false →
    ∀ s n, Layout.fresh (q.view.copyOn? s) n = Layout.fresh (p.view.copyOn? s) n

theorem Fulfils.handled (h : Fulfils ds p command ch) (hp : p.Sound)
    (hfit : ch.Fits p.state.metadata p.view) :
    Handled command p ⟨command, none⟩ (ch.apply p) := by
  constructor
  case named => rfl
  case rejected => exact fun hno => by cases hno
  case applied =>
    intro _
    obtain ⟨x, hx⟩ := h.exists_notes
    have hshard := View.shard_of_mem_notes (hx ▸ List.mem_singleton_self x)
    exact ⟨x, Option.some_inj.mp (hshard.symm.trans h.shard?_eq), by
      rw [Change.apply, View.transitions_onView, hx]⟩
  case slots => exact h.slotCount hp hfit command.shard
  case others =>
    intro s hs
    have hne : ch.shard? ≠ some s := by
      rw [h.shard?_eq]
      exact fun heq => hs (Option.some_inj.mp heq).symm
    exact ⟨View.copyOn?_onView_of_ne hp.view.consistent hfit hne,
      View.unassignedOf_onView_of_ne hp.view.consistent hfit hne⟩
  case history => exact h.history
  case waiting => exact h.waiting
  case fresh => exact h.fresh hp hfit

/-- Every command ends in an outcome and does what it owes. -/
theorem execute_spec (hp : p.Sound) (ds : List Decider) (command : Command) :
    ∃ o q, execute ds command p = .ok o q ∧ Handled command p o q := by
  rcases execute_cases hp ds command with ⟨rejection, hrun⟩ | ⟨ch, hrun, hfit, hfulfils⟩
  · refine ⟨_, p, hrun, rfl, fun _ => rfl, fun hyes => ?_, rfl, fun _ _ => ⟨rfl, rfl⟩, rfl,
      fun _ => rfl, fun _ _ _ => rfl⟩
    cases hyes
  · exact ⟨_, _, hrun, hfulfils.handled hp hfit⟩

/-! ### The commands that are applied -/

theorem eq_of_rejected {o : CommandOutcome} (h : execute ds command p = .ok o q)
    (hno : o.isApplied = false) : q = p := by
  unfold execute at h
  rw [bind_ok (get_eq p)] at h
  cases hplan : plan ds p command with
  | error rejection =>
    rw [hplan] at h
    cases h
    rfl
  | ok pl =>
    rw [hplan] at h
    obtain ⟨⟨⟩, r, -, hr⟩ := exists_of_bind_ok h
    cases hr
    cases hno

/-- Each command has an outcome, and those that were applied do the same without the others. -/
theorem executeAll_applied {commands : List Command} {os : List CommandOutcome}
    (h : executeAll ds commands p = .ok os q) :
    os.map (·.command) = commands ∧
      executeAll ds ((os.filter (·.isApplied)).map (·.command)) p =
        .ok (os.filter (·.isApplied)) q := by
  induction commands generalizing p os with
  | nil =>
    cases h
    exact ⟨rfl, rfl⟩
  | cons command rest ih =>
    obtain ⟨o, r, ho, h⟩ := exists_of_bind_ok h
    obtain ⟨later, q', hlater, h⟩ := exists_of_bind_ok h
    cases h
    have hcommand := command_of_execute ho
    obtain ⟨hall, hagain⟩ := ih hlater
    refine ⟨by rw [List.map_cons, hcommand, hall], ?_⟩
    cases happlied : o.isApplied with
    | false =>
      -- nothing has changed when the later commands are executed
      obtain rfl := eq_of_rejected ho happlied
      rw [List.filter_cons_of_neg (by simp [happlied])]
      exact hagain
    | true =>
      rw [List.filter_cons_of_pos (by simp [happlied]), List.map_cons, hcommand, executeAll,
        bind_ok ho, bind_ok hagain]
      rfl

end Pass

end ShardAllocation
