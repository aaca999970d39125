/-
The commands of an operator, as runs of changes.

A command is planned against the view that it finds, and a plan fits that view, so that
carrying it out never ends with a fault; the deciders may be any.

* `Planned` — what is known of the view when a plan is made, command by command;
* `planned_of_plan` — every plan is made so;
* `execute_cases` — a command changes nothing, or makes the one change that it stands for;
* `executeAll_leads` — the commands of a trigger are a run of changes.
-/
import ShardAllocation.Proofs.Pass.Departure

namespace ShardAllocation

namespace Pass

variable {F : Prop} {p q r : Pass} {ds : List Decider} {s : ShardId} {n k : NodeId} {c : Copy}

/-! ### The checks -/

theorem checkTarget_ok (h : checkTarget ds p c n = .ok ()) :
    p.view.copyOn? c.shard n = none ∧ Accepts ds p c n := by
  unfold checkTarget at h
  split at h
  next => cases h
  next hnone =>
    split at h
    next => cases h
    next node hnode =>
      simp only at h
      split at h
      next => cases h
      next hno => exact ⟨by simpa using hnone, node, hnode, hno⟩

theorem checkLive_ok {v : View} (h : checkLive v n = .ok ()) : v.isLive n = true := by
  unfold checkLive at h
  split at h
  next hlive => exact hlive
  next => split at h <;> cases h

theorem heldCopy_ok {v : View} (h : heldCopy v s n = .ok c) : v.copyOn? s n = some c := by
  unfold heldCopy at h
  split at h
  next d hd =>
    cases h
    exact hd
  next => cases h

/-- A slot that is chosen waits for the shard, and a primary slot only if that is allowed. -/
theorem chooseSlot_ok {v : View} {allow : Bool} (h : chooseSlot v s allow = .ok c) :
    c ∈ v.unassigned ∧ c.shard = s ∧ (c.primary = true → allow = true) := by
  have hslot : c ∈ v.unassignedOf s → c ∈ v.unassigned ∧ c.shard = s := fun hc => by
    simpa [View.unassignedOf] using hc
  have hreplica : ∀ {d : Copy}, (v.unassignedOf s).find? (!·.primary) = some d →
      d ∈ v.unassignedOf s ∧ d.primary = false := fun hd =>
    ⟨List.mem_of_find?_eq_some hd, by simpa using List.find?_some hd⟩
  have hleft : ∀ {d : Copy}, (v.unassignedOf s).find? (!·.primary) = some d → d = c →
      c ∈ v.unassigned ∧ c.shard = s ∧ (c.primary = true → allow = true) := by
    rintro d hd rfl
    obtain ⟨hmem, hprim⟩ := hreplica hd
    obtain ⟨hmem, hshard⟩ := hslot hmem
    exact ⟨hmem, hshard, fun heq => by rw [hprim] at heq; cases heq⟩
  cases hprimary : (v.unassignedOf s).find? (·.primary) with
  | none =>
    -- no primary slot waits, and a replica slot is taken
    cases hother : (v.unassignedOf s).find? (!·.primary) with
    | none => simp [chooseSlot, hprimary, hother] at h
    | some d =>
      simp only [chooseSlot, hprimary, hother, Except.ok.injEq] at h
      exact hleft hother h
  | some d =>
    cases hallow : allow with
    | true =>
      -- the primary slot goes first where it may be filled
      simp only [chooseSlot, hprimary, hallow, if_true, Except.ok.injEq] at h
      obtain ⟨hmem, hshard⟩ := hslot (h ▸ List.mem_of_find?_eq_some hprimary)
      exact ⟨hmem, hshard, fun _ => rfl⟩
    | false =>
      cases hother : (v.unassignedOf s).find? (!·.primary) with
      | none => simp [chooseSlot, hprimary, hother, hallow] at h
      | some e =>
        simp only [chooseSlot, hprimary, hother, hallow, Bool.false_eq_true, if_false,
          Except.ok.injEq] at h
        exact hallow ▸ hleft hother h

/-! ### Plans -/

/-- What is known of the view when a command is planned. -/
inductive Planned (ds : List Decider) (p : Pass) : Command → Plan → Prop where
  | move {s : ShardId} {n k : NodeId} {c : Copy} : p.view.isLive k = true →
    p.view.copyOn? s n = some c → c.state = .started → p.view.copyOn? s k = none →
    Accepts ds p c k → Planned ds p (.move s n k) (.relocate n k)
  | allocate {s : ShardId} {n : NodeId} {allow : Bool} {c : Copy} : p.view.isLive n = true →
    c ∈ p.view.unassigned → c.shard = s → (c.primary = true → allow = true) →
    p.view.copyOn? s n = none → Accepts ds p c n → Planned ds p (.allocate s n allow) (.place c n)
  | recallTarget {s : ShardId} {n k : NodeId} {allow : Bool} {c : Copy} :
    p.view.copyOn? s n = some c → c.state = .initializing → c.peer = some k →
    Planned ds p (.cancel s n allow) (.cancelRelocation k)
  | recallSource {s : ShardId} {n : NodeId} {allow : Bool} {c : Copy} :
    p.view.copyOn? s n = some c → c.state = .relocating →
    Planned ds p (.cancel s n allow) (.cancelRelocation n)
  | release {s : ShardId} {n : NodeId} {allow : Bool} {c : Copy} :
    p.view.copyOn? s n = some c → c.state = .initializing → c.isRelocationTarget = false →
    (c.primary = true → allow = true) → Planned ds p (.cancel s n allow) (.unassign n)

theorem planned_of_cancelPlan {allow : Bool} {plan : Plan}
    (hc : p.view.copyOn? s n = some c) (h : cancelPlan c s n allow = .ok plan) :
    Planned ds p (.cancel s n allow) plan := by
  unfold cancelPlan at h
  split at h
  next ht =>
    obtain ⟨hinit, hsome⟩ := Copy.isRelocationTarget_iff.mp ht
    obtain ⟨k, hpeer⟩ := Option.isSome_iff_exists.mp hsome
    rw [hpeer] at h
    cases h
    exact .recallTarget hc hinit hpeer
  next ht =>
    split at h
    next hrel =>
      cases h
      exact .recallSource hc (by simpa [Copy.isRelocating] using hrel)
    next =>
      split at h
      next hinit =>
        split at h
        next => cases h
        next hallow =>
          cases h
          exact .release hc (by simpa [Copy.isInitializing] using hinit) (Bool.not_eq_true _ ▸ ht)
            (by simpa using hallow)
      next => cases h

theorem planned_of_plan (hp : p.Sound) {command : Command} {pl : Plan}
    (h : plan ds p command = .ok pl) : Planned ds p command pl := by
  cases hknown : p.state.metadata.knows command.shard with
  | false =>
    simp only [plan, hknown, Bool.not_false, if_true] at h
    cases h
  | true =>
    simp only [plan, hknown, Bool.not_true, Bool.false_eq_true, if_false] at h
    cases command with
    | move s n k =>
      obtain ⟨⟨⟩, hlive, h⟩ := bind_eq_ok_iff.mp h
      obtain ⟨c, hheld, h⟩ := bind_eq_ok_iff.mp h
      have hc := heldCopy_ok hheld
      split at h
      next => cases h
      next hstarted =>
        obtain ⟨⟨⟩, htarget, h⟩ := bind_eq_ok_iff.mp h
        cases h
        obtain ⟨hempty, haccepts⟩ := checkTarget_ok htarget
        rw [(hp.view.consistent.own hc).1] at hempty
        exact .move (checkLive_ok hlive) hc (by simpa [Copy.isStarted] using hstarted) hempty
          haccepts
    | allocate s n allow =>
      obtain ⟨⟨⟩, hlive, h⟩ := bind_eq_ok_iff.mp h
      obtain ⟨c, hslot, h⟩ := bind_eq_ok_iff.mp h
      obtain ⟨⟨⟩, htarget, h⟩ := bind_eq_ok_iff.mp h
      cases h
      obtain ⟨hmem, hshard, hallow⟩ := chooseSlot_ok hslot
      obtain ⟨hempty, haccepts⟩ := checkTarget_ok htarget
      exact .allocate (checkLive_ok hlive) hmem hshard hallow (hshard ▸ hempty) haccepts
    | cancel s n allow =>
      obtain ⟨⟨⟩, -, h⟩ := bind_eq_ok_iff.mp h
      obtain ⟨c, hheld, h⟩ := bind_eq_ok_iff.mp h
      exact planned_of_cancelPlan (heldCopy_ok hheld) h

/-! ### Carrying them out -/

/-- The policy of a pass whose commands ended in some outcomes. -/
def Policy.ofOutcomes (ds : List Decider) (t : Trigger) (outcomes : List CommandOutcome) :
    Policy where
  deciders := ds
  trigger := t
  forced s := ∃ n, ⟨.allocate s n true, none⟩ ∈ outcomes

/-- More outcomes admit more. -/
theorem Policy.admits_ofOutcomes {t : Trigger} {few many : List CommandOutcome}
    (hsub : few ⊆ many) {ch : Change} (h : (Policy.ofOutcomes ds t few).Admits p ch) :
    (Policy.ofOutcomes ds t many).Admits p ch := by
  cases ch with
  | install c n =>
    refine ⟨h.1, fun hlost => ?_⟩
    obtain ⟨k, hk⟩ := h.2 hlost
    exact ⟨k, hsub hk⟩
  | _ => exact h

theorem Policy.arranges_ofOutcomes {t : Trigger} {few many : List CommandOutcome}
    (hsub : few ⊆ many) {ch : Change} (h : (Policy.ofOutcomes ds t few).Arranges p ch) :
    (Policy.ofOutcomes ds t many).Arranges p ch :=
  ⟨Policy.admits_ofOutcomes hsub h.1, h.2⟩

/-- The slot of an accepted command may be filled. -/
theorem place_leads {G : Pass → Change → Prop} (hp : p.Sound) (hmem : c ∈ p.view.unassigned)
    (hn : p.view.copyOn? c.shard n = none) (hlive : p.view.isLive n = true)
    (hguard : G p (.install c n)) :
    Leads F (mutate (View.place c n)) p fun _ q => q = (Change.install c n).apply p ∧
      Runs G p q := by
  have hstate := hp.view.consistent.waiting c hmem
  exact (leads_change (G := G) (.install c n) .refl (View.place_eq hmem hstate hn)
    rfl ⟨hmem, hn, hlive⟩ hguard).mono fun _ q hq => ⟨hq.2, hq.1⟩

/-- The change that a command stands for. -/
inductive Fulfils (ds : List Decider) (p : Pass) : Command → Change → Prop where
  | move {c : Copy} {n k : NodeId} : Accepts ds p c k →
    Fulfils ds p (.move c.shard n k) (.relocate c n k)
  | allocate {c : Copy} {n : NodeId} {allow : Bool} : (c.primary = true → allow = true) →
    Accepts ds p c n → Fulfils ds p (.allocate c.shard n allow) (.install c n)
  /-- A move is called back, from either of its ends. -/
  | cancel {c : Copy} {n k : NodeId} {allow : Bool} : n = k ∨ c.peer = some n →
    Fulfils ds p (.cancel c.shard n allow) (.cancel c k)
  | release {c : Copy} {n : NodeId} {allow : Bool} {info : UnassignedInfo} :
    c.state = .initializing → (c.primary = true → allow = true) →
    Fulfils ds p (.cancel c.shard n allow) (.release c n info)

theorem Fulfils.shard?_eq {command : Command} {ch : Change} (h : Fulfils ds p command ch) :
    ch.shard? = some command.shard := by
  cases h <;> rfl

/-- Carrying out a plan makes one change, which fits the view. -/
theorem exists_carryOut (hp : p.Sound) {command : Command} {pl : Plan}
    (h : Planned ds p command pl) :
    ∃ ch, carryOut command.shard pl p = .ok () (ch.apply p) ∧
      ch.Fits p.state.metadata p.view ∧ Fulfils ds p command ch := by
  have hv := hp.view.consistent
  cases h with
  | @move s n k c hlive hc hs hk haccepts =>
    obtain ⟨rfl, -⟩ := hv.own hc
    exact ⟨.relocate c n k, mutate_eq _ (View.relocate_eq hv hc hs hk) rfl,
      ⟨hc, hs, hk, hlive⟩, .move haccepts⟩
  | @allocate s n allow c hlive hmem hshard hallow hn haccepts =>
    subst hshard
    have hrun := View.place_eq hmem (hv.waiting c hmem) hn
    exact ⟨.install c n, mutate_eq _ hrun rfl, ⟨hmem, hn, hlive⟩, .allocate hallow haccepts⟩
  | @recallTarget s n k allow c hc hinit hpeer =>
    -- the change is about the source, which points back at the copy on `n`
    obtain ⟨rfl, -⟩ := hv.own hc
    obtain ⟨d, hd, hrel, hback⟩ := (hv.linked _).source hc hinit hpeer
    have hshard := (hv.own hd).1
    rw [← hshard] at hd
    have hrun := cancelRelocation_onView hv hd hrel
    rw [hshard] at hrun
    exact ⟨.cancel d k, mutate_eq _ hrun rfl, ⟨hd, hrel⟩, hshard ▸ .cancel (.inr hback)⟩
  | @recallSource s n allow c hc hrel =>
    obtain ⟨rfl, -⟩ := hv.own hc
    exact ⟨.cancel c n, mutate_eq _ (cancelRelocation_onView hv hc hrel) rfl, ⟨hc, hrel⟩,
      .cancel (.inl rfl)⟩
  | @release s n allow c hc hinit ht hallow =>
    obtain ⟨rfl, -⟩ := hv.own hc
    exact ⟨.release c n _, mutate_eq _ (View.unassign_eq hv hc ht _) rfl, ⟨hc, ht⟩,
      .release hinit hallow⟩

/-- The change that a command stands for is admitted and arranges copies. -/
theorem Fulfils.arranges {P : Policy} {command : Command} {ch : Change}
    (h : Fulfils P.deciders p command ch) (hcommand : command ∈ P.trigger.commands)
    (hforced : ∀ s n, command = .allocate s n true → P.forced s) : P.Arranges p ch := by
  cases h with
  | move haccepts => exact ⟨haccepts, trivial⟩
  | @allocate c n allow hallow haccepts =>
    refine ⟨⟨haccepts, fun hlost => ?_⟩, trivial⟩
    -- a lost primary was chosen, so the command allows it
    have hprim : c.primary = true := (Bool.and_eq_true_iff.mp hlost).1
    exact hforced c.shard n (by rw [hallow hprim])
  | @cancel c n k allow => exact ⟨trivial, n, allow, hcommand⟩
  | @release c n allow info hinit =>
    have hinactive : c.isActive = false := by
      simp [Copy.isActive, Copy.isStarted, Copy.isRelocating, hinit]
    exact ⟨.inl hinactive, hinactive, n, allow, hcommand⟩

/-- A command is rejected and changes nothing, or it makes the change that it stands for. -/
theorem execute_cases (hp : p.Sound) (ds : List Decider) (command : Command) :
    (∃ rejection, execute ds command p = .ok ⟨command, some rejection⟩ p) ∨
      ∃ ch, execute ds command p = .ok ⟨command, none⟩ (ch.apply p) ∧
        ch.Fits p.state.metadata p.view ∧ Fulfils ds p command ch := by
  unfold execute
  rw [bind_ok (get_eq p)]
  cases hplan : plan ds p command with
  | error rejection => exact .inl ⟨rejection, rfl⟩
  | ok pl =>
    obtain ⟨ch, hrun, hfit, hfulfils⟩ := exists_carryOut hp (planned_of_plan hp hplan)
    refine .inr ⟨ch, ?_, hfit, hfulfils⟩
    simp only
    rw [bind_ok hrun]
    rfl

/-- An outcome names the command that was executed. -/
theorem command_of_execute {command : Command} {o : CommandOutcome}
    (h : execute ds command p = .ok o q) : o.command = command := by
  unfold execute at h
  rw [bind_ok (get_eq p)] at h
  cases hplan : plan ds p command with
  | error rejection =>
    simp only [hplan] at h
    cases h
    rfl
  | ok pl =>
    simp only [hplan] at h
    obtain ⟨⟨⟩, r, -, hr⟩ := exists_of_bind_ok h
    cases hr
    rfl

/-- Among the outcomes of some commands, that of a command stands where the command does, and it
is what executing the command gives after those before it. -/
theorem exists_execute_of_executeAll {before after : List Command} {command : Command}
    {outcomes : List CommandOutcome}
    (h : executeAll ds (before ++ command :: after) p = .ok outcomes q) :
    ∃ earlier u o w, executeAll ds before p = .ok earlier u ∧ execute ds command u = .ok o w ∧
      outcomes[before.length]? = some o := by
  induction before generalizing p outcomes with
  | nil =>
    obtain ⟨o, w, ho, h⟩ := exists_of_bind_ok h
    obtain ⟨later, w', -, h⟩ := exists_of_bind_ok h
    cases h
    exact ⟨[], p, o, w, rfl, ho, rfl⟩
  | cons first before ih =>
    obtain ⟨o₁, p₁, ho₁, h⟩ := exists_of_bind_ok h
    obtain ⟨later, q', hlater, h⟩ := exists_of_bind_ok h
    cases h
    obtain ⟨earlier, u, o, w, hearlier, ho, hat⟩ := ih hlater
    refine ⟨o₁ :: earlier, u, o, w, ?_, ho, hat⟩
    rw [executeAll, bind_ok ho₁, bind_ok hearlier]
    rfl

theorem execute_leads (hp : p.Sound) (t : Trigger) {command : Command}
    (hcommand : command ∈ t.commands) :
    Leads F (execute ds command) p fun o q => Runs (Policy.ofOutcomes ds t [o]).Arranges p q := by
  rcases execute_cases hp ds command with ⟨rejection, hrun⟩ | ⟨ch, hrun, hfit, hfulfils⟩
  · exact leads_of_ok hrun .refl
  · have harranges : (Policy.ofOutcomes ds t [⟨command, none⟩]).Arranges p ch := by
      refine hfulfils.arranges hcommand fun s n heq => ⟨n, ?_⟩
      rw [heq]
      exact List.mem_singleton_self _
    exact leads_of_ok hrun (.single hfit harranges)

theorem executeAll_leads (hp : p.Sound) (t : Trigger) {commands : List Command}
    (hcommands : commands ⊆ t.commands) :
    Leads F (executeAll ds commands) p fun os q =>
      Runs (Policy.ofOutcomes ds t os).Arranges p q := by
  induction commands generalizing p with
  | nil => exact leads_pure .refl
  | cons command rest ih =>
    obtain ⟨hcommand, hlater⟩ := List.cons_subset.mp hcommands
    -- the outcomes that follow admit what the first one does, and more
    refine (execute_leads hp t hcommand).bind fun o q hq => ?_
    refine (ih (hq.sound hp) hlater).bind fun os r hr => leads_pure ?_
    have hfirst : [o] ⊆ o :: os := List.cons_subset_cons o (List.nil_subset os)
    have hrest : os ⊆ o :: os := List.subset_cons_self o os
    exact (hq.mono fun _ _ => Policy.arranges_ofOutcomes hfirst).trans
      (hr.mono fun _ _ => Policy.arranges_ofOutcomes hrest)

end Pass

end ShardAllocation
