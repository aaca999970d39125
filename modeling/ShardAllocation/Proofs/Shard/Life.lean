/-
The life of a copy.

A copy is made unassigned and then goes through steps; one that does not apply leaves it as it
is.  The shapes that a copy can take on the way are the five that `Shaped` allows, and none of
them is left out: each copy of such a shape is what some steps make of a fresh one.

What the shape does not tell follows from the latest turn of the copy, the latest step that
changed more than its role.  An unassigned copy says whether it was active when it was taken off
its node, whatever the caller had to say about that, and a relocation target is the other half of
a copy that was on its way.

* `Step.Leads`, `Step.result?_eq_some_iff` — all that one step can do;
* `Shaped.run`, `shard_run`, `primary_run` — what any steps keep;
* `run_turn` — a copy is what its latest turn made of it, up to its role;
* `Shaped.eq_cases`, `shaped_iff_exists_run` — the shapes are exactly those that copies take;
* `run_possible` — what holds at every point of a life.
-/
import ShardAllocation.Proofs.Shard.Shape

namespace ShardAllocation

namespace Copy

variable {c d : Copy}

/-! ### Steps -/

/-- A step of a copy. -/
inductive Step where
  | place (node : NodeId)
  | start
  | relocate (target : NodeId)
  | cancelRelocation
  | unassign (info : UnassignedInfo)
  | promote
  | demote
  /-- Goes over to the other half of the move. -/
  | arrive
  deriving DecidableEq, Repr

namespace Step

/-- The copy after a step, if the step applies. -/
def result? (c : Copy) : Step → Option Copy
  | place node => (c.place node).toOption
  | start => c.start.toOption
  | relocate target => (c.relocate target).toOption
  | cancelRelocation => c.cancelRelocation.toOption
  | unassign info => (c.unassign info).toOption
  | promote => c.promote.toOption
  | demote => some c.demote
  | arrive => c.relocationTarget?

/-- The copy after a step.  A step that does not apply leaves it as it is. -/
def apply (c : Copy) (step : Step) : Copy := (step.result? c).getD c

/-- The role that a step gives. -/
def role? : Step → Option Bool
  | promote => some true
  | demote => some false
  | _ => none

/-- What a step makes of a copy that it applies to. -/
inductive Leads (c : Copy) : Step → Copy → Prop where
  | place {n : NodeId} (hs : c.state = .unassigned) : Leads c (.place n) (c.placedOn n)
  | start (hs : c.state = .initializing) : Leads c .start c.settled
  | relocate {n : NodeId} (hs : c.state = .started) (hn : c.node ≠ some n) :
    Leads c (.relocate n) (c.departing n)
  | cancelRelocation (hs : c.state = .relocating) : Leads c .cancelRelocation c.settled
  | unassign {info : UnassignedInfo} (hs : c.state ≠ .unassigned)
    (ht : c.isRelocationTarget = false) : Leads c (.unassign info) (c.slot info)
  | promote (hrole : c.primary = false) : Leads c .promote c.asPrimary
  | demote : Leads c .demote c.demote
  | arrive {t : Copy} (ht : c.relocationTarget? = some t) : Leads c .arrive t

variable {step : Step}

theorem toOption_eq_some_iff {r : Except Fault Copy} : r.toOption = some d ↔ r = .ok d := by
  cases r <;> simp [Except.toOption]

theorem leads_of_result? (h : step.result? c = some d) : Leads c step d := by
  cases step with
  | place n =>
    obtain ⟨hs, rfl⟩ := place_eq_ok_iff.mp (toOption_eq_some_iff.mp h)
    exact .place hs
  | start =>
    obtain ⟨hs, rfl⟩ := start_eq_ok_iff.mp (toOption_eq_some_iff.mp h)
    exact .start hs
  | relocate n =>
    obtain ⟨hs, hn, rfl⟩ := relocate_eq_ok_iff.mp (toOption_eq_some_iff.mp h)
    exact .relocate hs hn
  | cancelRelocation =>
    obtain ⟨hs, rfl⟩ := cancelRelocation_eq_ok_iff.mp (toOption_eq_some_iff.mp h)
    exact .cancelRelocation hs
  | unassign info =>
    obtain ⟨hs, ht, rfl⟩ := unassign_eq_ok_iff.mp (toOption_eq_some_iff.mp h)
    exact .unassign hs ht
  | promote =>
    obtain ⟨hrole, rfl⟩ := promote_eq_ok_iff.mp (toOption_eq_some_iff.mp h)
    exact .promote hrole
  | demote =>
    cases h
    exact .demote
  | arrive => exact .arrive h

theorem Leads.result?_eq (h : Leads c step d) : step.result? c = some d := by
  cases h with
  | place hs => exact toOption_eq_some_iff.mpr (place_eq_ok_iff.mpr ⟨hs, rfl⟩)
  | start hs => exact toOption_eq_some_iff.mpr (start_eq_ok_iff.mpr ⟨hs, rfl⟩)
  | relocate hs hn => exact toOption_eq_some_iff.mpr (relocate_eq_ok_iff.mpr ⟨hs, hn, rfl⟩)
  | cancelRelocation hs =>
    exact toOption_eq_some_iff.mpr (cancelRelocation_eq_ok_iff.mpr ⟨hs, rfl⟩)
  | unassign hs ht => exact toOption_eq_some_iff.mpr (unassign_eq_ok_iff.mpr ⟨hs, ht, rfl⟩)
  | promote hrole => exact toOption_eq_some_iff.mpr (promote_eq_ok_iff.mpr ⟨hrole, rfl⟩)
  | demote => rfl
  | arrive ht => exact ht

theorem result?_eq_some_iff : step.result? c = some d ↔ Leads c step d :=
  ⟨leads_of_result?, Leads.result?_eq⟩

theorem Leads.apply_eq (h : Leads c step d) : step.apply c = d := by
  rw [apply, h.result?_eq, Option.getD_some]

/-- A step does what it does to a copy that it applies to, or nothing. -/
theorem leads_or_apply_eq (c : Copy) (step : Step) :
    Leads c step (step.apply c) ∨ step.result? c = none ∧ step.apply c = c := by
  cases hresult : step.result? c with
  | none => exact .inr ⟨rfl, by rw [apply, hresult, Option.getD_none]⟩
  | some d =>
    have hleads := result?_eq_some_iff.mp hresult
    exact .inl (hleads.apply_eq ▸ hleads)

/-! ### What one step keeps -/

namespace Leads

theorem shaped (h : Leads c step d) (hc : c.Shaped) : d.Shaped := by
  cases h with
  | place => exact .placedOn c _
  | start hs => exact hc.settled (by rw [hs]; decide)
  | relocate hs hn => exact hc.departing hs hn
  | cancelRelocation hs => exact hc.settled (by rw [hs]; decide)
  | unassign => exact .slot c _
  | promote => exact hc.asPrimary
  | demote => exact hc.demote
  | arrive ht => exact hc.relocationTarget? ht

theorem shard (h : Leads c step d) : d.shard = c.shard := by
  cases h with
  | arrive ht => rw [(relocationTarget?_eq_some_iff.mp ht).2]
  | _ => rfl

theorem primary (h : Leads c step d) : d.primary = step.role?.getD c.primary := by
  cases h with
  | arrive ht =>
    rw [(relocationTarget?_eq_some_iff.mp ht).2]
    rfl
  | _ => rfl

/-- A step that gives a role changes nothing else. -/
theorem eq_of_role (h : Leads c step d) (hrole : step.role? ≠ none) :
    d = { c with primary := d.primary } := by
  cases h with
  | promote => rfl
  | demote => rfl
  | _ => exact absurd rfl hrole

end Leads

theorem shaped_apply (step : Step) (hc : c.Shaped) : (step.apply c).Shaped := by
  rcases leads_or_apply_eq c step with h | ⟨-, h⟩
  · exact h.shaped hc
  · rw [h]
    exact hc

theorem shard_apply (step : Step) (c : Copy) : (step.apply c).shard = c.shard := by
  rcases leads_or_apply_eq c step with h | ⟨-, h⟩
  · exact h.shard
  · rw [h]

/-- The role after a step is the one that it gives, also if it does not apply: only a primary
cannot become the primary. -/
theorem primary_apply (step : Step) (c : Copy) :
    (step.apply c).primary = step.role?.getD c.primary := by
  rcases leads_or_apply_eq c step with h | ⟨hnone, h⟩
  · exact h.primary
  · rw [h]
    cases step with
    | promote =>
      cases hrole : c.primary with
      | true => rfl
      | false =>
        rw [(Leads.promote hrole).result?_eq] at hnone
        cases hnone
    | demote => cases hnone
    | _ => rfl

end Step

/-! ### Whole lives -/

variable {steps : List Step}

/-- The copy after some steps. -/
def run (c : Copy) (steps : List Step) : Copy := steps.foldl Step.apply c

theorem run_append (c : Copy) (earlier later : List Step) :
    c.run (earlier ++ later) = (c.run earlier).run later := List.foldl_append

/-- The copy after a step that applied and some more. -/
theorem Step.Leads.run_eq {before : List Step} {step : Step} (h : Step.Leads (c.run before) step d)
    (after : List Step) : c.run (before ++ step :: after) = d.run after := by
  rw [run_append]
  exact congrArg (run · after) h.apply_eq

theorem Shaped.run (hc : c.Shaped) (steps : List Step) : (c.run steps).Shaped := by
  induction steps generalizing c with
  | nil => exact hc
  | cons step rest ih => exact ih (step.shaped_apply hc)

theorem shard_run (c : Copy) (steps : List Step) : (c.run steps).shard = c.shard := by
  induction steps generalizing c with
  | nil => rfl
  | cons step rest ih => exact (ih (step.apply c)).trans (step.shard_apply c)

/-- The role of a copy is the one that was given last. -/
theorem primary_run (c : Copy) (steps : List Step) :
    (c.run steps).primary = (steps.filterMap Step.role?).getLastD c.primary := by
  induction steps generalizing c with
  | nil => rfl
  | cons step rest ih =>
    have hrest : (c.run (step :: rest)).primary = _ := ih (step.apply c)
    rw [hrest, step.primary_apply]
    cases hrole : step.role? with
    | none => rw [List.filterMap_cons_none hrole, Option.getD_none]
    | some role => rw [List.filterMap_cons_some hrole, Option.getD_some, List.getLastD_cons]

/-! ### The latest turn -/

/-- Through all of the steps nothing but the role of the copy changes. -/
def Rests (c : Copy) (steps : List Step) : Prop :=
  ∀ earlier, earlier <+: steps → ∃ role, c.run earlier = { c with primary := role }

namespace Rests

theorem nil (c : Copy) : Rests c [] := by
  intro earlier hearlier
  rw [List.prefix_nil.mp hearlier]
  exact ⟨c.primary, rfl⟩

theorem cons {step : Step} {rest : List Step} (h : ∃ role, step.apply c = { c with primary := role })
    (hrest : Rests (step.apply c) rest) : Rests c (step :: rest) := by
  intro earlier hearlier
  obtain ⟨role, hstep⟩ := h
  rcases List.prefix_cons_iff.mp hearlier with rfl | ⟨earlier, rfl, hinit⟩
  · exact ⟨c.primary, rfl⟩
  · obtain ⟨role', hrun⟩ := hrest earlier hinit
    rw [hstep] at hrun
    exact ⟨role', by rw [run, List.foldl_cons, hstep]; exact hrun⟩

theorem run_eq (h : Rests c steps) : ∃ role, c.run steps = { c with primary := role } :=
  h steps List.prefix_rfl

end Rests

/-- Since its making or since some step, nothing but the role of a copy has changed. -/
theorem run_turn (c : Copy) (steps : List Step) :
    Rests c steps ∨ ∃ before step after, steps = before ++ step :: after ∧ step.role? = none ∧
      ∃ d, Step.Leads (c.run before) step d ∧ Rests d after ∧ c.run steps = d.run after := by
  induction steps generalizing c with
  | nil => exact .inl (.nil c)
  | cons step rest ih =>
    rcases ih (step.apply c) with hrests | ⟨before, later, after, rfl, hrole, hturn⟩
    · rcases step.leads_or_apply_eq c with h | ⟨-, h⟩
      · cases hrole : step.role? with
        | none => exact .inr ⟨[], step, rest, rfl, hrole, step.apply c, h, hrests, rfl⟩
        | some role => exact .inl (.cons ⟨_, h.eq_of_role (by simp [hrole])⟩ hrests)
      · exact .inl (.cons ⟨c.primary, h⟩ hrests)
    · exact .inr ⟨step :: before, later, after, rfl, hrole, hturn⟩

/-- An unassigned copy is as it was made, or it remembers how it was taken off its node. -/
theorem run_unassigned (hwaits : (c.run steps).state = .unassigned) :
    Rests c steps ∧ (c.run steps).info = c.info ∨
      ∃ before info after slot, steps = before ++ .unassign info :: after ∧
        (c.run before).unassign info = .ok slot ∧ Rests slot after ∧
          (c.run steps).info = some { info with lostActiveCopy := (c.run before).isActive } := by
  rcases run_turn c steps with hrests | ⟨before, step, after, rfl, hrole, d, hturn, hrests, hrun⟩
  · obtain ⟨role, hrun⟩ := hrests.run_eq
    exact .inl ⟨hrests, by rw [hrun]⟩
  · obtain ⟨role, hsince⟩ := hrests.run_eq
    rw [hrun, hsince] at hwaits ⊢
    cases hturn with
    | unassign hs ht =>
      exact .inr ⟨before, _, after, _, rfl, unassign_eq_ok_iff.mpr ⟨hs, ht, rfl⟩, hrests, rfl⟩
    | arrive ht =>
      rw [(relocationTarget?_eq_some_iff.mp ht).2] at hwaits
      cases hwaits
    | promote => cases hrole
    | demote => cases hrole
    | _ => cases hwaits

/-- A relocation target is the other half of a copy that was on its way, with no turn since. -/
theorem isRelocationTarget_run_iff (hc : c.Shaped) (hfresh : c.isRelocationTarget = false) :
    (c.run steps).isRelocationTarget = true ↔
      ∃ before after t, steps = before ++ .arrive :: after ∧
        (c.run before).relocationTarget? = some t ∧ Rests t after := by
  constructor
  · intro htarget
    rcases run_turn c steps with hrests | ⟨before, step, after, rfl, hrole, d, hturn, hrests, hrun⟩
    · obtain ⟨role, hrun⟩ := hrests.run_eq
      rw [hrun] at htarget
      exact absurd (htarget.symm.trans hfresh) (by decide)
    · obtain ⟨role, hsince⟩ := hrests.run_eq
      rw [hrun, hsince, isRelocationTarget_iff] at htarget
      obtain ⟨hs, hpeer⟩ := htarget
      cases hturn with
      | arrive ht => exact ⟨before, after, d, rfl, ht, hrests⟩
      | promote => cases hrole
      | demote => cases hrole
      | place => cases hpeer
      | _ => cases hs
  · rintro ⟨before, after, t, rfl, ht, hrests⟩
    obtain ⟨role, hsince⟩ := hrests.run_eq
    rw [(Step.Leads.arrive ht).run_eq after, hsince, isRelocationTarget_iff]
    obtain ⟨hs, rfl⟩ := relocationTarget?_eq_some_iff.mp ht
    exact ⟨rfl, (hc.run before).node_isSome.mpr (by rw [hs]; decide)⟩

/-! ### The five shapes -/

namespace Shaped

theorem unassigned_iff (hc : c.Shaped) : c.state = .unassigned ↔ c.node = none := by
  rw [← Option.not_isSome_iff_eq_none, hc.node_isSome, Decidable.not_not]

/-- Only the two halves of a move name another node. -/
theorem peer_iff (hc : c.Shaped) :
    c.peer.isSome = true ↔ c.state = .relocating ∨ c.isRelocationTarget = true := by
  rw [isRelocationTarget_iff]
  constructor
  · intro hpeer
    exact (hc.state_of_peer hpeer).imp_right fun hs => ⟨hs, hpeer⟩
  · rintro (hs | ⟨-, hpeer⟩)
    · exact hc.peer_isSome hs
    · exact hpeer

/-- The two halves of a move are on different nodes. -/
theorem exists_node_ne {m : NodeId} (hc : c.Shaped) (hm : c.peer = some m) :
    ∃ n, c.node = some n ∧ n ≠ m := by
  have hpeer : c.peer.isSome := by rw [hm]; rfl
  have hassigned : c.state ≠ .unassigned := by
    rcases hc.state_of_peer hpeer with hs | hs <;> rw [hs] <;> decide
  obtain ⟨n, hn⟩ := Option.isSome_iff_exists.mp (hc.node_isSome.mpr hassigned)
  refine ⟨n, hn, fun heq => hc.peer_ne_node hpeer ?_⟩
  rw [hm, hn, heq]

end Shaped

/-- A copy waits, is filled, is complete, or is either half of a move. -/
theorem Shaped.eq_cases (hc : c.Shaped) :
    (∃ info, c = Copy.newUnassigned c.shard c.primary info) ∨
    (∃ n, c = { shard := c.shard, primary := c.primary, state := .initializing, node := some n }) ∨
    (∃ n, c = { shard := c.shard, primary := c.primary, state := .started, node := some n }) ∨
    (∃ n m, n ≠ m ∧ c = { shard := c.shard, primary := c.primary, state := .relocating
                          node := some n, peer := some m }) ∨
    ∃ n m, n ≠ m ∧ c = { shard := c.shard, primary := c.primary, state := .initializing
                         node := some m, peer := some n } := by
  cases htarget : c.isRelocationTarget with
  | true =>
    obtain ⟨hs, hpeer⟩ := isRelocationTarget_iff.mp htarget
    obtain ⟨n, hn⟩ := Option.isSome_iff_exists.mp hpeer
    obtain ⟨m, hm⟩ := Option.isSome_iff_exists.mp (hc.node_isSome.mpr (by rw [hs]; decide))
    have hne := hc.peer_ne_node hpeer
    have hinfo : c.info = none := by simpa [hs] using hc.info_isSome
    obtain ⟨shard, primary, state, node, peer, info⟩ := c
    simp only at hs hn hm hne hinfo
    subst hs hn hm hinfo
    exact .inr (.inr (.inr (.inr ⟨n, m, by simpa using hne, rfl⟩)))
  | false =>
    have hstored : c.Stored := stored_iff.mpr ⟨hc, htarget⟩
    obtain ⟨shard, primary, state, node, peer, info⟩ := c
    cases state with
    | unassigned =>
      obtain ⟨rfl, rfl, hinfo⟩ := hstored
      obtain ⟨info, rfl⟩ := Option.isSome_iff_exists.mp hinfo
      exact .inl ⟨info, rfl⟩
    | initializing =>
      obtain ⟨hnode, rfl, rfl⟩ := hstored
      obtain ⟨n, rfl⟩ := Option.isSome_iff_exists.mp hnode
      exact .inr (.inl ⟨n, rfl⟩)
    | started =>
      obtain ⟨hnode, rfl, rfl⟩ := hstored
      obtain ⟨n, rfl⟩ := Option.isSome_iff_exists.mp hnode
      exact .inr (.inr (.inl ⟨n, rfl⟩))
    | relocating =>
      obtain ⟨n, m, rfl, rfl, hne, rfl⟩ := hstored
      exact .inr (.inr (.inr (.inl ⟨n, m, hne, rfl⟩)))

/-! ### Every shape is taken -/

section

variable (shard : ShardId) (primary : Bool) (info : UnassignedInfo)

theorem run_place (n : NodeId) :
    (newUnassigned shard primary info).run [.place n] =
      { shard, primary, state := .initializing, node := some n } :=
  rfl

theorem run_start (n : NodeId) :
    (newUnassigned shard primary info).run [.place n, .start] =
      { shard, primary, state := .started, node := some n } :=
  rfl

theorem run_relocate {n m : NodeId} (hne : n ≠ m) :
    (newUnassigned shard primary info).run [.place n, .start, .relocate m] =
      { shard, primary, state := .relocating, node := some n, peer := some m } := by
  show ((newUnassigned shard primary info).run [.place n, .start]).run [.relocate m] = _
  rw [run_start]
  exact Step.Leads.apply_eq (.relocate rfl (by simpa using hne))

theorem run_arrive {n m : NodeId} (hne : n ≠ m) :
    (newUnassigned shard primary info).run [.place n, .start, .relocate m, .arrive] =
      { shard, primary, state := .initializing, node := some m, peer := some n } := by
  show ((newUnassigned shard primary info).run [.place n, .start, .relocate m]).run [.arrive] = _
  rw [run_relocate shard primary info hne]
  rfl

end

/-- The invariant is exact: the copies of such a shape are those that some steps make of a
fresh one. -/
theorem shaped_iff_exists_run :
    c.Shaped ↔ ∃ primary info steps, (newUnassigned c.shard primary info).run steps = c := by
  constructor
  · intro hc
    -- why an assigned copy was unassigned at first does not matter
    let anything : UnassignedInfo := { reason := .indexCreated, since := ⟨0, 0⟩ }
    rcases hc.eq_cases with ⟨info, h⟩ | ⟨n, h⟩ | ⟨n, h⟩ | ⟨n, m, hne, h⟩ | ⟨n, m, hne, h⟩
    · exact ⟨c.primary, info, [], h.symm⟩
    · exact ⟨c.primary, anything, [.place n], (run_place ..).trans h.symm⟩
    · exact ⟨c.primary, anything, [.place n, .start], (run_start ..).trans h.symm⟩
    · exact ⟨c.primary, anything, _, (run_relocate _ _ _ hne).trans h.symm⟩
    · exact ⟨c.primary, anything, _, (run_arrive _ _ _ hne).trans h.symm⟩
  · rintro ⟨primary, info, steps, hrun⟩
    exact hrun ▸ (Shaped.newUnassigned c.shard primary info).run steps

/-! ### What holds at every point of a life -/

/-- What holds of a copy that some steps made of a fresh one. -/
structure Possible (fresh : Copy) (steps : List Step) (c : Copy) : Prop where
  info_iff : c.info.isSome = true ↔ c.state = .unassigned
  unassigned_iff : c.state = .unassigned ↔ c.node = none
  peer_iff : c.peer.isSome = true ↔ c.state = .relocating ∨ c.isRelocationTarget = true
  apart : ∀ m, c.peer = some m → ∃ n, c.node = some n ∧ n ≠ m
  /-- A relocation target is the other half of a copy that was on its way. -/
  arrived_iff : c.isRelocationTarget = true ↔
    ∃ before after t, steps = before ++ .arrive :: after ∧
      (fresh.run before).relocationTarget? = some t ∧ Rests t after
  shard : c.shard = fresh.shard
  /-- The role is the one that was given last. -/
  role : c.primary = (steps.filterMap Step.role?).getLastD fresh.primary
  role_step : ∀ step : Step, (step.apply c).primary ≠ c.primary →
    step = .promote ∨ step = .demote
  /-- The slot that a copy leaves behind says whether the copy was active, and for the rest what
  the caller says. -/
  unassign_iff : ∀ info d, c.unassign info = .ok d ↔
    c.state ≠ .unassigned ∧ c.isRelocationTarget = false ∧
      d = newUnassigned c.shard c.primary { info with lostActiveCopy := c.isActive }
  /-- An unassigned copy is as it was made, or it still says whether it was active when it was
  last taken off its node. -/
  remembers : c.state = .unassigned →
    Rests fresh steps ∧ c.info = fresh.info ∨
      ∃ before info after slot, steps = before ++ .unassign info :: after ∧
        (fresh.run before).unassign info = .ok slot ∧ Rests slot after ∧
          c.info = some { info with lostActiveCopy := (fresh.run before).isActive }

/-- Whatever steps are tried on a fresh copy, it keeps a possible shape. -/
theorem run_possible (shard : ShardId) (primary : Bool) (info : UnassignedInfo)
    (steps : List Step) :
    Possible (newUnassigned shard primary info) steps
      ((newUnassigned shard primary info).run steps) := by
  have hfresh := Shaped.newUnassigned shard primary info
  have hshaped := hfresh.run steps
  constructor
  case info_iff => exact hshaped.info_isSome
  case unassigned_iff => exact hshaped.unassigned_iff
  case peer_iff => exact hshaped.peer_iff
  case apart => exact fun m => hshaped.exists_node_ne
  case arrived_iff => exact isRelocationTarget_run_iff hfresh rfl
  case shard => exact shard_run ..
  case role => exact primary_run ..
  case role_step =>
    intro step hchanged
    rw [step.primary_apply] at hchanged
    cases step with
    | promote => exact .inl rfl
    | demote => exact .inr rfl
    | _ => exact absurd rfl hchanged
  case unassign_iff => exact fun info d => unassign_eq_ok_iff
  case remembers => exact run_unassigned

/-- Neither a step that does not apply nor the word of the caller hides that the copy was active. -/
example :
    let shard : ShardId := ⟨"logs", 0⟩
    let lost : UnassignedInfo := { reason := .nodeLeft, since := ⟨0, 0⟩ }
    (newUnassigned shard true lost).run [.place "a", .start, .relocate "a", .relocate "b", .arrive,
      .unassign lost, .start, .unassign lost] =
        newUnassigned shard true { lost with lostActiveCopy := true } := by
  decide

end Copy

end ShardAllocation
