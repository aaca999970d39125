/-
Passes on which nothing is left to do.

At the end of a pass every slot that waits has no node to go to, no replica can be rebuilt, no
copy can be moved off a node where it may not remain, and the rebalancer has no move to make.
A pass that begins like that and has nothing to take into account places and moves nothing.
All it does is to record once more, for every slot that waits, why it has no node.

* `Exhausted` — nothing is left to do;
* `Placed.exhausted` — the placing phases end like that, under standard deciders;
* `attempts` — the failed attempts that an exhausted pass records;
* `phases_eq_placements` — what the phases are when there is nothing to take into account;
* `Exhausted.phases_eq` — what the phases do on an exhausted pass.
-/
import ShardAllocation.Proofs.History
import ShardAllocation.Proofs.Pass.Alike
import ShardAllocation.Proofs.Pass.Phases

namespace ShardAllocation

/-- A trigger without reports and commands. -/
structure Trigger.Quiet (t : Trigger) : Prop where
  started : t.started = []
  failed : t.failed = []
  commands : t.commands = []

namespace Pass

variable {P : Policy} {p q : Pass} {ds : List Decider} {s : ShardId} {n : NodeId} {c : Copy}

/-- No slot can be filled, no replica rebuilt and no copy moved. -/
structure Exhausted (ds : List Decider) (p : Pass) : Prop where
  waiting : ∀ c ∈ p.view.unassigned, isLostPrimary c = true ∨ Stuck ds p c none
  missing : ∀ s, p.view.slotCount s < p.state.metadata.capacity s →
    ∃ info, Stuck ds p (Copy.newUnassigned s false info) none
  staying : ∀ n c, p.view.isLive n = true → p.view.copyOn? c.shard n = some c →
    c.state = .started → Unmovable ds p n c
  balanced : Balanced ds p

/-! ### The end of a pass -/

/-- A pass ends exhausted: what was impossible at some point of the placing phases is still
impossible at their end. -/
theorem Placed.exhausted (h : Placed P p q) (hds : P.deciders ⊆ Decider.standard) (hp : p.Sound)
    (hcovers : p.view.Covers fun k => p.view.isLive k = true) : Exhausted P.deciders q := by
  have hq := h.runs.sound hp
  have hstuck : ∀ {c}, Once P p q (Stuck P.deciders · c none) → Stuck P.deciders q c none := by
    rintro c ⟨u, hbefore, hafter, hu⟩
    have hsound := hbefore.sound hp
    exact hu.grown hds (hafter.grown hsound) hsound hq (hbefore.covers hcovers)
  refine ⟨fun c hc => (h.waits c hc).imp_right hstuck, fun s hroom => ?_,
    fun n c hlive hc hs => ?_, h.balanced⟩
  · obtain ⟨info, honce⟩ := h.lacks s hroom
    exact ⟨info, hstuck honce⟩
  · obtain ⟨u, hbefore, hafter, hu⟩ := h.stays n c hlive hc hs
    have hsound := hbefore.sound hp
    rw [hafter.isLive_eq] at hlive
    exact hu.grown hds (hafter.grown hsound) hsound hq (hbefore.covers hcovers) hlive

/-- Alike passes are exhausted together. -/
theorem Exhausted.alike (h : Exhausted ds p) (hds : ds ⊆ Decider.standard) (halike : p.Alike q) :
    Exhausted ds q := by
  have hstuck : ∀ {c excluded}, Stuck ds p c excluded → Stuck ds q c excluded :=
    fun hstuck => hstuck.alike hds halike
  refine ⟨fun c hc => ?_, fun s hroom => ?_, fun n c hlive hc hs node hnode hno => ?_, ?_⟩
  · exact (h.waiting c (halike.unassigned.mem_iff.mp hc)).imp_right hstuck
  · rw [halike.slotCount_eq, halike.metadata] at hroom
    obtain ⟨info, hinfo⟩ := h.missing s hroom
    exact ⟨info, hstuck hinfo⟩
  · rw [halike.node?_eq] at hnode
    rw [halike.remaining_eq hds] at hno
    rw [halike.copyOn?_eq] at hc
    rw [View.isLive, halike.live] at hlive
    exact hstuck (h.staying n c hlive hc hs node hnode hno)
  · intro hyes
    rw [halike.clusterRebalance_eq hds] at hyes
    rw [halike.nextMove?_eq hds]
    exact h.balanced hyes

/-! ### The attempts of an exhausted pass -/

/-- The attempt that is recorded when no node is found for a slot. -/
def attempt? (ds : List Decider) (p : Pass) (c : Copy) : Option Attempt :=
  if isLostPrimary c then none
  else
    match findNode ds c none p with
    | .node _ => none
    | .deferred nodes => some ⟨c.primary, .throttle, nodes⟩
    | .refused nodes => some ⟨c.primary, .no, nodes⟩

/-- The attempts of some slots, each with its shard. -/
def attemptsOf (ds : List Decider) (p : Pass) (slots : List Copy) : List (ShardId × Attempt) :=
  slots.filterMap fun c => (attempt? ds p c).map (c.shard, ·)

theorem attemptsOf_singleton (ds : List Decider) (p : Pass) (c : Copy) :
    attemptsOf ds p [c] = ((attempt? ds p c).map (c.shard, ·)).toList := by
  rw [attemptsOf, List.filterMap_cons]
  cases attempt? ds p c <;> rfl

/-- The attempts of all slots that wait, in the order in which they are tried. -/
def attempts (ds : List Decider) (p : Pass) : List (ShardId × Attempt) :=
  attemptsOf ds p (sortBy allocationOrder p.view.unassigned)

theorem attemptsOf_alike (hds : ds ⊆ Decider.standard) (h : p.Alike q) (slots : List Copy) :
    attemptsOf ds q slots = attemptsOf ds p slots := by
  refine List.filterMap_congr fun c _ => ?_
  rw [attempt?, attempt?, h.findNode_eq hds]

theorem attempts_alike (hds : ds ⊆ Decider.standard) (h : p.Alike q)
    (hsame : q.view.unassigned = p.view.unassigned) : attempts ds q = attempts ds p := by
  rw [attempts, attempts, hsame, attemptsOf_alike hds h]

theorem mem_attempts {x : ShardId × Attempt} : x ∈ attempts ds p ↔
    ∃ c ∈ p.view.unassigned, attempt? ds p c = some x.2 ∧ c.shard = x.1 := by
  obtain ⟨s, a⟩ := x
  simp only [attempts, attemptsOf, List.mem_filterMap, mem_sortBy, Option.map_eq_some_iff,
    Prod.mk.injEq]
  constructor
  · rintro ⟨c, hc, b, hb, rfl, rfl⟩
    exact ⟨c, hc, hb, rfl⟩
  · rintro ⟨c, hc, ha, rfl⟩
    exact ⟨c, hc, a, ha, rfl, rfl⟩

theorem primary_of_attempt? {a : Attempt} (h : attempt? ds p c = some a) :
    a.primary = c.primary := by
  unfold attempt? at h
  split at h
  · cases h
  · split at h <;> cases h <;> rfl

/-- Every slot of a shard has the same attempt as the others in its role. -/
theorem attempt?_unique (hds : ds ⊆ Decider.standard) (hp : p.Sound) {d : Copy}
    (hc : c ∈ p.view.unassigned) (hd : d ∈ p.view.unassigned) (hshard : c.shard = d.shard)
    {a b : Attempt} (ha : attempt? ds p c = some a) (hb : attempt? ds p d = some b)
    (hrole : a.primary = b.primary) : a = b := by
  have hprim : c.primary = d.primary :=
    (primary_of_attempt? ha).symm.trans (hrole.trans (primary_of_attempt? hb))
  have hwaiting := hp.view.consistent.waiting
  have hshaped := hp.view.shaped.waiting
  have hsame := (hshaped c hc).eq_withInfo (hshaped d hd) (hwaiting c hc) (hwaiting d hd) hshard
    hprim
  have hfound : findNode ds c none p = findNode ds d none p := by
    rw [hsame]
    exact findNode_withInfo hds d c.info
  unfold attempt? at ha hb
  rw [hfound, hprim] at ha
  split at ha
  · cases ha
  · split at hb
    · cases hb
    · exact Option.some_inj.mp (ha.symm.trans hb)

/-- The attempts of a round come in the order that the history expects. -/
theorem orderly_attempts (hds : ds ⊆ Decider.standard) (hp : p.Sound) :
    History.Orderly (attempts ds p) where
  first := by
    have hsorted : (sortBy allocationOrder p.view.unassigned).Pairwise
        fun c d => d.primary = true → c.primary = true := by
      refine pairwise_sortBy (fun _ _ _ hab hbc hc => hab (hbc hc)) ?_ ?_ _
      · intro c d hle hd
        unfold allocationOrder at hle
        split at hle
        next heq => rw [eq_of_beq heq, hd]
        next => exact hle
      · intro c d hnot hc
        unfold allocationOrder at hnot
        split at hnot
        next heq => rw [← eq_of_beq heq, hc]
        next =>
          rw [hc] at hnot
          cases hnot
    refine hsorted.filterMap _ fun c d hcd x hx y hy hprim => ?_
    obtain ⟨a, ha, rfl⟩ := Option.map_eq_some_iff.mp hx
    obtain ⟨b, hb, rfl⟩ := Option.map_eq_some_iff.mp hy
    rw [primary_of_attempt? hb] at hprim
    exact (primary_of_attempt? ha).trans (hcd hprim)
  same := by
    intro x hx y hy hshard hrole
    obtain ⟨c, hc, ha, hcs⟩ := mem_attempts.mp hx
    obtain ⟨d, hd, hb, hds'⟩ := mem_attempts.mp hy
    exact attempt?_unique hds hp hc hd (hcs.trans (hshard.trans hds'.symm)) ha hb hrole

theorem knows_of_mem_attempts (hp : p.Sound) {x : ShardId × Attempt} (hx : x ∈ attempts ds p) :
    p.state.metadata.knows x.1 = true := by
  obtain ⟨c, hc, -, hshard⟩ := mem_attempts.mp hx
  exact hshard ▸ hp.view.knows_of_mem hc

/-- Recording attempts about declared shards keeps a pass sound. -/
theorem Sound.recordAll (hp : p.Sound) {l : List (ShardId × Attempt)}
    (h : ∀ x ∈ l, p.state.metadata.knows x.1 = true) :
    ({ p with history := p.history.recordAll l } : Pass).Sound := by
  induction l generalizing p with
  | nil => exact hp
  | cons x rest ih =>
    have hfirst : ((Change.record x.1 x.2).apply p).Sound := hp.apply (h x List.mem_cons_self)
    exact ih hfirst fun y hy => h y (List.mem_cons_of_mem x hy)

namespace Exhausted

/-- Only a primary that lost its data is not tried. -/
theorem isSome_attempt? (h : Exhausted ds p) (hc : c ∈ p.view.unassigned) :
    (attempt? ds p c).isSome = !isLostPrimary c := by
  rw [attempt?]
  cases hlost : isLostPrimary c with
  | true => rfl
  | false =>
    have hstuck := (h.waiting c hc).resolve_left (by simp [hlost])
    rw [if_neg Bool.false_ne_true]
    cases hfound : findNode ds c none p with
    | node n => exact absurd hfound (hstuck n)
    | deferred nodes => rfl
    | refused nodes => rfl

/-- The attempts for primaries are about the primaries that wait and have not lost their data. -/
theorem exists_attempt_iff (h : Exhausted ds p) :
    (∃ x ∈ attempts ds p, x.1 = s ∧ x.2.primary = true) ↔
      ∃ c ∈ p.view.unassigned, c.shard = s ∧ c.primary = true ∧ isLostPrimary c = false := by
  constructor
  · rintro ⟨x, hx, rfl, hprim⟩
    obtain ⟨c, hc, ha, hshard⟩ := mem_attempts.mp hx
    have htried := h.isSome_attempt? hc
    rw [ha, Option.isSome_some, eq_comm, Bool.not_eq_true'] at htried
    exact ⟨c, hc, hshard, (primary_of_attempt? ha).symm.trans hprim, htried⟩
  · rintro ⟨c, hc, hshard, hprim, hlost⟩
    have htried := h.isSome_attempt? hc
    rw [hlost, Bool.not_false] at htried
    obtain ⟨a, ha⟩ := Option.isSome_iff_exists.mp htried
    exact ⟨(s, a), mem_attempts.mpr ⟨c, hc, ha, hshard⟩, rfl, (primary_of_attempt? ha).trans hprim⟩

theorem allocateCopy_eq (h : Exhausted ds p) (hc : c ∈ p.view.unassigned) : allocateCopy ds c p =
    .ok () { p with history := p.history.recordAll (attemptsOf ds p [c]) } := by
  rw [attemptsOf_singleton, attempt?, allocateCopy]
  by_cases hlost : isLostPrimary c = true
  · simp only [hlost]
    rfl
  · have hlost : isLostPrimary c = false := Bool.not_eq_true _ ▸ hlost
    have hstuck := (h.waiting c hc).resolve_left (by simp [hlost])
    simp only [hlost, Bool.not_false, if_true]
    rw [bind_ok (get_eq p)]
    cases hfound : findNode ds c none p with
    | node n => exact absurd hfound (hstuck n)
    | deferred nodes => rfl
    | refused nodes => rfl

/-- The allocation records the attempts and places nothing. -/
theorem forM_allocateCopy_eq (hds : ds ⊆ Decider.standard) (h : Exhausted ds p)
    {slots : List Copy} (hslots : slots ⊆ p.view.unassigned) :
    slots.forM (allocateCopy ds) p =
      .ok () { p with history := p.history.recordAll (attemptsOf ds p slots) } := by
  induction slots generalizing p with
  | nil => rfl
  | cons c rest ih =>
    obtain ⟨hc, hrest⟩ := List.cons_subset.mp hslots
    -- recording an attempt changes nothing that the rest depends on
    have halike := Alike.of_history p (p.history.recordAll (attemptsOf ds p [c])) p.time
    show (allocateCopy ds c >>= fun _ => rest.forM (allocateCopy ds)) p = _
    rw [bind_ok (h.allocateCopy_eq hc)]
    refine (ih (h.alike hds halike) hrest).trans ?_
    have hsplit : attemptsOf ds p (c :: rest) = attemptsOf ds p [c] ++ attemptsOf ds p rest :=
      List.filterMap_append (l := [c])
    rw [attemptsOf_alike hds halike, hsplit, History.recordAll_append]

theorem allocateUnassigned_eq (hds : ds ⊆ Decider.standard) (h : Exhausted ds p) :
    allocateUnassigned ds p = .ok () { p with history := p.history.recordAll (attempts ds p) } := by
  rw [allocateUnassigned, bind_ok (get_eq p)]
  exact h.forM_allocateCopy_eq hds (perm_sortBy allocationOrder p.view.unassigned).subset

end Exhausted

/-! ### Nothing to do -/

/-- Without departed nodes a quiet trigger leads straight to the placing phases. -/
theorem phases_eq_placements (hlive : p.AllLive) {t : Trigger} (ht : t.Quiet) :
    Allocator.phases ds t p = (placements ds >>= fun _ => pure []) p := by
  have hstarted : t.started.forM applyStarted p = .ok () p := by
    rw [ht.started]
    rfl
  have hfailed : t.failed.forM applyFailed p = .ok () p := by
    rw [ht.failed]
    rfl
  have hcommands : executeAll ds t.commands p = .ok [] p := by
    rw [ht.commands]
    rfl
  rw [Pass.phases_eq, bind_ok hstarted, bind_ok hfailed, bind_ok hlive.reconcile_eq,
    bind_ok hcommands]

/-- A loop whose steps do nothing does nothing. -/
theorem forM_eq_self {γ : Type} {body : γ → Phase Unit} {l : List γ}
    (h : ∀ a ∈ l, body a p = .ok () p) : l.forM body p = .ok () p := by
  induction l with
  | nil => rfl
  | cons a rest ih =>
    show (body a >>= fun _ => rest.forM body) p = _
    rw [bind_ok (h a List.mem_cons_self)]
    exact ih fun b hb => h b (List.mem_cons_of_mem a hb)

namespace Exhausted

theorem replenishReplicas_eq (hds : ds ⊆ Decider.standard) (h : Exhausted ds p) (hp : p.Sound) :
    replenishReplicas ds p = .ok () p := by
  rw [replenishReplicas, bind_ok (get_eq p)]
  refine forM_eq_self fun m hm => forM_eq_self fun s hs => ?_
  rw [bind_ok (get_eq p)]
  cases hmissing : m.copiesPerShard - p.view.slotCount s with
  | zero => rfl
  | succ missing =>
    have hcapacity := capacity_of_mem hp hm hs
    obtain ⟨info, hstuck⟩ := h.missing s (by omega)
    rw [replenishShard, bind_ok (get_eq p)]
    -- when a replica would be added does not matter
    have hsame : findNode ds
        (Copy.newUnassigned s false (p.unassignedInfo .replicaAdded none)) none p =
          findNode ds (Copy.newUnassigned s false info) none p :=
      findNode_withInfo hds (Copy.newUnassigned s false info) _
    simp only [hsame]
    cases hfound : findNode ds (Copy.newUnassigned s false info) none p with
    | node n => exact absurd hfound (hstuck n)
    | deferred nodes => rfl
    | refused nodes => rfl

theorem moveShards_eq (h : Exhausted ds p) (hp : p.Sound) : moveShards ds p = .ok () p := by
  rw [moveShards, bind_ok (get_eq p)]
  refine forM_eq_self fun n hn => ?_
  rw [bind_ok (get_eq p)]
  obtain ⟨node, hmem, rfl⟩ := List.mem_map.mp hn
  obtain ⟨hnode, hlive⟩ := node?_of_mem_liveNodes hmem
  simp only [hnode]
  refine forM_eq_self fun c hc => ?_
  obtain ⟨hheld, hs⟩ := (mem_filter_isStarted_iff hp.view.consistent hnode).mp hc
  have hstuck := h.staying node.id c hlive hheld hs node hnode
  rw [moveCopy, bind_ok (get_eq p)]
  simp only [hnode]
  split
  next hno =>
    cases hfound : findNode ds c (some node.id) p with
    | node k => exact absurd hfound (hstuck hno k)
    | deferred nodes => rfl
    | refused nodes => rfl
  next => rfl

theorem rebalance_eq (h : Exhausted ds p) : rebalance ds p = .ok () p := by
  rw [rebalance, bind_ok (get_eq p)]
  cases p.view.countInState .started with
  | zero => rfl
  | succ moves =>
    rw [rebalanceUpTo, bind_ok (get_eq p)]
    split
    next hyes =>
      rw [h.balanced hyes]
      rfl
    next => rfl

/-- On an exhausted pass without departed nodes, a quiet trigger changes nothing but the
history. -/
theorem phases_eq (hds : ds ⊆ Decider.standard) (h : Exhausted ds p) (hp : p.Sound)
    (hlive : p.AllLive) {t : Trigger} (ht : t.Quiet) : Allocator.phases ds t p =
      .ok [] { p with history := p.history.recordAll (attempts ds p) } := by
  -- after the allocation only the history differs
  have hafter : Exhausted ds { p with history := p.history.recordAll (attempts ds p) } :=
    h.alike hds (.of_history p _ _)
  have hsound := hp.recordAll (l := attempts ds p) fun x hx => knows_of_mem_attempts hp hx
  have hplacements : placements ds p =
      .ok () { p with history := p.history.recordAll (attempts ds p) } := by
    rw [placements, bind_ok (h.allocateUnassigned_eq hds),
      bind_ok (hafter.replenishReplicas_eq hds hsound), bind_ok (hafter.moveShards_eq hsound),
      hafter.rebalance_eq]
  rw [phases_eq_placements hlive ht, bind_ok hplacements]
  rfl

end Exhausted

end Pass

end ShardAllocation
