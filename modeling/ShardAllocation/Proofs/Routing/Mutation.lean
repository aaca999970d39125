/-
When the changes of the working view succeed, and what they make of it.

On a consistent view every change whose precondition holds ends without a fault and has
the effect that `Routing.Effect` writes down, together with the step that it notes.

* `start_eq`, `cancelRelocation_eq`, `relocate_eq` — recoveries and moves;
* `unassign_eq`, `drop_eq` — a copy leaves its node;
* `place_eq`, `addUnassigned_eq` — slots;
* `promoteReplica_eq`, `promoteReplica_eq_none` — a replica takes over, if one can;
* `place_fails`, `relocate_fails` — no node takes a second copy of a shard.
-/
import ShardAllocation.Proofs.Routing.Effect

namespace ShardAllocation

/-- A step that succeeds hands its result to the rest. -/
theorem bind_ok {σ α β : Type} {p : EStateM Fault σ α} {f : α → EStateM Fault σ β} {x y : σ}
    {a : α} (h : p x = .ok a y) : (p >>= f) x = f a y := by
  show EStateM.bind p f x = _
  simp only [EStateM.bind, h]

/-- A step that fails ends the whole. -/
theorem bind_error {σ α β : Type} {p : EStateM Fault σ α} {f : α → EStateM Fault σ β} {x y : σ}
    {e : Fault} (h : p x = .error e y) : (p >>= f) x = .error e y := by
  show EStateM.bind p f x = _
  simp only [EStateM.bind, h]

/-- What succeeds as a whole succeeded step by step. -/
theorem exists_of_bind_ok {σ α β : Type} {p : EStateM Fault σ α} {f : α → EStateM Fault σ β}
    {x y : σ} {b : β} (h : (p >>= f) x = .ok b y) : ∃ a z, p x = .ok a z ∧ f a z = .ok b y := by
  cases hp : p x with
  | ok a z =>
    rw [bind_ok hp] at h
    exact ⟨a, z, rfl, h⟩
  | error e z =>
    rw [bind_error hp] at h
    cases h

/-- A sequence of checks succeeds exactly when each of them does. -/
theorem bind_eq_ok_iff {ε α β : Type} {x : Except ε α} {f : α → Except ε β} {b : β} :
    (x >>= f) = .ok b ↔ ∃ a, x = .ok a ∧ f a = .ok b := by
  cases x <;> simp [bind, Except.bind]

/-- A sequence of checks fails with the fault of the first that does. -/
theorem bind_eq_error_iff {ε α β : Type} {x : Except ε α} {f : α → Except ε β} {e : ε} :
    (x >>= f) = .error e ↔ x = .error e ∨ ∃ a, x = .ok a ∧ f a = .error e := by
  cases x <;> simp [bind, Except.bind]

theorem get_eq {σ : Type} (x : σ) : (get : EStateM Fault σ σ) x = .ok x x := rfl

namespace View

variable {v : View} {s : ShardId} {n m : NodeId} {c d : Copy}

/-! ### The operations on one copy -/

theorem attempt_eq {α : Type} {r : Except Fault α} {a : α} (h : r = .ok a) :
    attempt r v = .ok a v := by
  rw [h]
  rfl

theorem attempt_fails {α : Type} {r : Except Fault α} {e : Fault} (h : r = .error e) :
    attempt r v = .error e v := by
  rw [h]
  rfl

theorem expectCopy_eq (hc : v.copyOn? s n = some c) : expectCopy s n v = .ok c v := by
  rw [expectCopy, bind_ok (get_eq v)]
  simp only [hc]
  rfl

theorem nodes_get?_of_copyOn? (hc : v.copyOn? s n = some c) :
    v.nodes.get? n = some (v.heldOn n) := by
  obtain ⟨held, hheld, -⟩ := Option.bind_eq_some_iff.mp hc
  rw [heldOn, hheld]
  rfl

theorem addCopy_eq (hnode : c.node = some n) (hn : v.copyOn? c.shard n = none) :
    addCopy c v = .ok () (v.put n c) := by
  have hheld : ((v.nodes.get? n).getD SortedMap.empty).get? c.shard = none :=
    (copyOn?_eq v c.shard n).symm.trans hn
  rw [addCopy, bind_ok (get_eq v)]
  simp only [hnode, hheld]
  rfl

theorem addCopy_fails (hnode : c.node = some n) (hd : v.copyOn? c.shard n = some d) :
    ∃ e, addCopy c v = .error e v := by
  have hheld : ((v.nodes.get? n).getD SortedMap.empty).get? c.shard = some d :=
    (copyOn?_eq v c.shard n).symm.trans hd
  rw [addCopy, bind_ok (get_eq v)]
  simp only [hnode, hheld]
  exact ⟨_, rfl⟩

/-- Entering a copy where its shard is held already changes no holder. -/
theorem holders_put (h : v.Indexed) (hd : v.copyOn? c.shard n = some d) :
    (v.put n c).holders = v.holders := by
  have hmem : (v.holdersOf c.shard).contains n = true := by
    rw [h.contains_holdersOf, hd]
    rfl
  have hsame : SortedSet.add (v.holdersOf c.shard) n = v.holdersOf c.shard := by
    refine SortedSet.ext_contains fun k => ?_
    rw [SortedSet.contains_add]
    by_cases hk : k = n <;> simp [hk, hmem]
  have hget : v.holders.get? c.shard = some (v.holdersOf c.shard) := by
    cases hh : v.holders.get? c.shard with
    | none => rw [holdersOf, hh] at hmem; cases hmem
    | some nodes => simp [holdersOf, hh]
  refine SortedMap.ext_get? fun t => ?_
  show (v.holders.insert c.shard (SortedSet.add (v.holdersOf c.shard) n)).get? t = _
  rw [hsame, SortedMap.get?_insert]
  split
  next ht => rw [ht, hget]
  next => rfl

theorem replaceCopy_eq (h : v.Indexed) (hnode : c.node = some n)
    (hd : v.copyOn? c.shard n = some d) : replaceCopy c v = .ok () (v.put n c) := by
  have hget := nodes_get?_of_copyOn? hd
  have hheld : (v.heldOn n).contains c.shard = true := by
    rw [SortedMap.contains, ← copyOn?_eq, hd]
    rfl
  have hput : v.put n c = { v with nodes := v.nodes.insert n ((v.heldOn n).insert c.shard c) } := by
    have hholders := holders_put h hd
    simp only [put] at hholders ⊢
    rw [hholders]
  rw [hput, replaceCopy, bind_ok (get_eq v)]
  simp only [hnode, Option.getD_some, hget, hheld, if_true]
  rfl

theorem removeCopy_eq (hc : v.copyOn? s n = some c) :
    removeCopy s n v = .ok () (v.take s n) := by
  have hget := nodes_get?_of_copyOn? hc
  have hheld : (v.heldOn n).contains s = true := by
    rw [SortedMap.contains, ← copyOn?_eq, hc]
    rfl
  rw [removeCopy, bind_ok (get_eq v)]
  simp only [hget, hheld, if_true]
  rfl

/-! ### Recoveries and moves -/

theorem start_eq (h : v.Consistent) (hc : v.copyOn? s n = some c)
    (hs : c.state = .initializing) :
    View.start s n v = .ok () ((v.settle n c).noted (.started s n)) := by
  obtain ⟨rfl, hnode⟩ := h.own hc
  have hstart : c.start = .ok c.settled := Copy.start_eq_ok_iff.mpr ⟨hs, rfl⟩
  rw [View.start, bind_ok (expectCopy_eq hc), bind_ok (attempt_eq hstart)]
  cases hp : c.peer with
  | none =>
    -- a recovery of its own
    have htarget : c.isRelocationTarget = false := by simp [Copy.isRelocationTarget, hp]
    have hpeer : v.withoutPeer c = v := by simp [withoutPeer, hp]
    have hreplace := replaceCopy_eq (c := c.settled) h.indexed hnode hc
    simp only [htarget, Bool.false_eq_true, if_false]
    rw [bind_ok hreplace, settle, hpeer]
    rfl
  | some m =>
    -- the end of a move: the source is checked and goes
    have htarget : c.isRelocationTarget = true := by
      simp [Copy.isRelocationTarget, Copy.isInitializing, hs, hp]
    obtain ⟨d, hd, hrel, hpd⟩ := (h.linked _).source hc hs hp
    obtain ⟨-, -, -, -, hne⟩ := (h.linked _).exists_peer hc hp
    have hmatch : (!d.isRelocating || decide (d.peer ≠ some n)) = false := by
      simp [Copy.isRelocating, hrel, hpd]
    have hpeer : v.withoutPeer c = v.take c.shard m := by simp [withoutPeer, hp]
    have hstill : (v.take c.shard m).copyOn? c.shard n = some c := by
      rw [copyOn?_take, if_neg (fun heq => hne heq.2.symm), hc]
    have hreplace := replaceCopy_eq (c := c.settled) (h.indexed.take c.shard m) hnode hstill
    simp only [htarget, if_true, Option.getD_some]
    rw [bind_ok (expectCopy_eq hd)]
    simp only [hmatch, Bool.false_eq_true, if_false]
    rw [bind_ok (removeCopy_eq hd), bind_ok hreplace, settle, hpeer]
    rfl

theorem cancelRelocation_eq (h : v.Consistent) (hc : v.copyOn? s n = some c)
    (hs : c.state = .relocating) (hp : c.peer = some m) :
    View.cancelRelocation s n v =
      .ok () ((v.settle n c).noted (.relocationCancelled s n m)) := by
  obtain ⟨rfl, hnode⟩ := h.own hc
  obtain ⟨d, hd, -, -, hne⟩ := (h.linked _).exists_peer hc hp
  have hcancel : c.cancelRelocation = .ok c.settled :=
    Copy.cancelRelocation_eq_ok_iff.mpr ⟨hs, rfl⟩
  have hpeer : v.withoutPeer c = v.take c.shard m := by simp [withoutPeer, hp]
  have hstill : (v.take c.shard m).copyOn? c.shard n = some c := by
    rw [copyOn?_take, if_neg (fun heq => hne heq.2.symm), hc]
  have hreplace := replaceCopy_eq (c := c.settled) (h.indexed.take c.shard m) hnode hstill
  rw [View.cancelRelocation, bind_ok (expectCopy_eq hc), bind_ok (attempt_eq hcancel)]
  simp only [hp, Option.getD_some]
  rw [bind_ok (removeCopy_eq hd), bind_ok hreplace, settle, hpeer]
  rfl

/-- The two halves of a copy that starts to move. -/
theorem relocate_copies (hs : c.state = .started) (hnode : c.node = some n) (hne : m ≠ n) :
    c.relocate m = .ok (c.departing m) ∧
      (c.departing m).relocationTarget? = some (c.arriving m) := by
  have hother : c.node ≠ some m := by
    rw [hnode]
    exact fun heq => hne (Option.some_inj.mp heq).symm
  constructor
  · exact Copy.relocate_eq_ok_iff.mpr ⟨hs, hother, rfl⟩
  · simp [Copy.relocationTarget?, Copy.isRelocating, Copy.departing, Copy.arriving]

theorem relocate_eq (h : v.Consistent) (hc : v.copyOn? s n = some c) (hs : c.state = .started)
    (hm : v.copyOn? s m = none) :
    View.relocate s n m v =
      .ok () ((v.depart n m c).noted (.relocationStarted s n m c.primary)) := by
  obtain ⟨rfl, hnode⟩ := h.own hc
  have hne : m ≠ n := fun heq => by rw [heq, hc] at hm; cases hm
  obtain ⟨hrelocate, htarget⟩ := relocate_copies hs hnode hne
  -- the target is entered first, which leaves the source where it is
  have hstill : (v.put m (c.arriving m)).copyOn? c.shard n = some c :=
    (copyOn?_put_elsewhere v _ _ hne.symm).trans hc
  have hreplace := replaceCopy_eq (c := c.departing m) (h.indexed.put m (c.arriving m)) hnode hstill
  have hadd : addCopy (c.arriving m) v = .ok () (v.put m (c.arriving m)) := addCopy_eq rfl hm
  rw [View.relocate, bind_ok (expectCopy_eq hc), bind_ok (attempt_eq hrelocate)]
  simp only [htarget]
  rw [bind_ok hadd, bind_ok hreplace]
  rfl

theorem relocate_fails (h : v.Consistent) (hc : v.copyOn? s n = some c) (hs : c.state = .started)
    (hd : v.copyOn? s m = some d) : ∃ e, View.relocate s n m v = .error e v := by
  obtain ⟨rfl, hnode⟩ := h.own hc
  rw [View.relocate, bind_ok (expectCopy_eq hc)]
  by_cases hmn : m = n
  · -- the copy itself is in the way
    obtain ⟨e, he⟩ : ∃ e, c.relocate m = .error e := by simp [Copy.relocate, hs, hnode, hmn]
    exact ⟨e, bind_error (attempt_fails he)⟩
  · -- the target cannot be entered
    obtain ⟨hrelocate, htarget⟩ := relocate_copies hs hnode hmn
    obtain ⟨e, he⟩ := addCopy_fails (c := c.arriving m) rfl hd
    rw [bind_ok (attempt_eq hrelocate)]
    simp only [htarget]
    exact ⟨e, bind_error he⟩

/-! ### A copy leaves its node -/

/-- Once the other half of its move is gone, a copy is still where it was. -/
theorem removeTarget_eq (h : v.Consistent) (hc : v.copyOn? c.shard n = some c)
    (ht : c.isRelocationTarget = false) :
    removeTarget c v = .ok () (v.withoutPeer c) ∧
      (v.withoutPeer c).copyOn? c.shard n = some c := by
  cases hp : c.peer with
  | none =>
    simp only [removeTarget, withoutPeer, hp]
    exact ⟨rfl, hc⟩
  | some m =>
    obtain ⟨d, hd, -, -, hne⟩ := (h.linked _).exists_peer hc hp
    have hrel : c.isRelocating = true := by
      simp [Copy.isRelocating, (h.linked _).state_of_peer hc hp ht]
    simp only [removeTarget, withoutPeer, hp, hrel, if_true]
    refine ⟨removeCopy_eq hd, ?_⟩
    rw [copyOn?_take, if_neg (fun heq => hne heq.2.symm), hc]

theorem unassign_eq (h : v.Consistent) (hc : v.copyOn? s n = some c)
    (ht : c.isRelocationTarget = false) (info : UnassignedInfo) :
    View.unassign s n info v =
      .ok () (((v.vacate n c).queue (c.slot info)).noted (.unassigned s n info.reason)) := by
  obtain ⟨rfl, -⟩ := h.own hc
  have hslot : c.unassign info = .ok (c.slot info) :=
    Copy.unassign_eq_ok_iff.mpr ⟨(h.linked _).assigned hc, ht, rfl⟩
  obtain ⟨hremove, hstill⟩ := removeTarget_eq h hc ht
  rw [View.unassign, bind_ok (expectCopy_eq hc), bind_ok (attempt_eq hslot), bind_ok hremove,
    bind_ok (removeCopy_eq hstill)]
  rfl

theorem drop_eq (h : v.Consistent) (hc : v.copyOn? s n = some c)
    (ht : c.isRelocationTarget = false) :
    View.drop s n v = .ok () ((v.vacate n c).noted (.dropped s n)) := by
  obtain ⟨rfl, -⟩ := h.own hc
  obtain ⟨hremove, hstill⟩ := removeTarget_eq h hc ht
  rw [View.drop, bind_ok (expectCopy_eq hc)]
  simp only [ht, Bool.false_eq_true, if_false]
  rw [bind_ok hremove, bind_ok (removeCopy_eq hstill)]
  rfl

theorem removeNode_eq (hn : ∀ s, v.copyOn? s n = none) :
    View.removeNode n v = .ok () (v.forget n) := by
  have hempty : ((v.nodes.get? n).getD SortedMap.empty).isEmpty = true := by
    by_contra hne
    obtain ⟨s, hs⟩ := SortedMap.isEmpty_eq_false_iff.mp (Bool.not_eq_true _ ▸ hne)
    have hget := copyOn?_eq v s n
    rw [hn s, heldOn] at hget
    rw [SortedMap.contains, ← hget] at hs
    cases hs
  rw [View.removeNode, bind_ok (get_eq v)]
  simp only [hempty, Bool.not_true, Bool.false_eq_true, if_false]
  rfl

/-! ### Slots -/

/-- The node that a slot is filled from: that of the active primary, for a replica. -/
def recoverySource (v : View) (c : Copy) : Option NodeId :=
  if c.primary then none else (v.activePrimary? c.shard).bind (·.node)

theorem place_eq (hmem : c ∈ v.unassigned) (hs : c.state = .unassigned)
    (hn : v.copyOn? c.shard n = none) :
    View.place c n v = .ok () ((v.occupy n c).noted
      (.initialized c.shard n c.primary ((v.occupy n c).recoverySource c))) := by
  have hplace : c.place n = .ok (c.placedOn n) := Copy.place_eq_ok_iff.mpr ⟨hs, rfl⟩
  have hadd : addCopy (c.placedOn n) v = .ok () (v.put n (c.placedOn n)) := addCopy_eq rfl hn
  rw [View.place, bind_ok (get_eq v)]
  simp only [hmem, not_true, if_false]
  rw [bind_ok (attempt_eq hplace), bind_ok hadd]
  rfl

theorem place_fails (hmem : c ∈ v.unassigned) (hs : c.state = .unassigned)
    (hd : v.copyOn? c.shard n = some d) : ∃ e, View.place c n v = .error e v := by
  have hplace : c.place n = .ok (c.placedOn n) := Copy.place_eq_ok_iff.mpr ⟨hs, rfl⟩
  obtain ⟨e, he⟩ := addCopy_fails (c := c.placedOn n) rfl hd
  rw [View.place, bind_ok (get_eq v)]
  simp only [hmem, not_true, if_false]
  rw [bind_ok (attempt_eq hplace)]
  exact ⟨e, bind_error he⟩

theorem addUnassigned_eq (hs : c.state = .unassigned) :
    View.addUnassigned c v = .ok () (v.queue c) := by
  have hwaits : c.isUnassigned = true := by simp [Copy.isUnassigned, hs]
  rw [View.addUnassigned]
  simp only [hwaits, Bool.not_true, Bool.false_eq_true, if_false]
  rfl

/-! ### Promotion -/

theorem mem_promotable (h : v.Indexed) {r : Copy} :
    r ∈ v.promotable s ↔ (∃ k, v.copyOn? s k = some r) ∧
      r.primary = false ∧ r.isActive = true ∧ r.node.any v.isLive = true := by
  have htarget : ∀ {c : Copy}, c.isActive = true → c.isRelocationTarget = false :=
    Copy.isRelocationTarget_of_active
  rw [promotable, List.mem_filter, mem_copies_iff h]
  simp only [Bool.and_eq_true, Bool.not_eq_true']
  constructor
  · rintro ⟨hr, ⟨⟨hprim, hactive⟩, -⟩, hlive⟩
    exact ⟨hr, hprim, hactive, hlive⟩
  · rintro ⟨hr, hprim, hactive, hlive⟩
    exact ⟨hr, ⟨⟨hprim, hactive⟩, htarget hactive⟩, hlive⟩

/-- The replica that takes over can take over. -/
theorem bestReplica?_mem {r : Copy} (h : v.bestReplica? s = some r) : r ∈ v.promotable s := by
  rcases Option.or_eq_some_iff.mp h with hr | ⟨-, hr⟩
  · exact List.mem_of_find?_eq_some hr
  · exact List.mem_of_mem_head? hr

theorem bestReplica?_eq_none_iff : v.bestReplica? s = none ↔ v.promotable s = [] := by
  simp only [bestReplica?, Option.or_eq_none_iff, List.head?_eq_none_iff]
  constructor
  · exact fun h => h.2
  · exact fun h => ⟨by rw [h]; rfl, h⟩

/-- The replica that takes over, with all that is known of it. -/
theorem bestReplica?_spec (h : v.Consistent) {r : Copy} (hr : v.bestReplica? s = some r) :
    ∃ n, r.node = some n ∧ v.copyOn? s n = some r ∧ r.primary = false ∧
      r.isActive = true ∧ v.isLive n = true := by
  obtain ⟨⟨n, hn⟩, hprim, hactive, hlive⟩ := (mem_promotable h.indexed).mp (bestReplica?_mem hr)
  obtain ⟨-, hnode⟩ := h.own hn
  rw [hnode] at hlive
  exact ⟨n, hnode, hn, hprim, hactive, hlive⟩

theorem promoteReplica_eq_none (hp : v.primary? s = none) (hr : v.bestReplica? s = none) :
    View.promoteReplica s v = .ok none v := by
  rw [View.promoteReplica, bind_ok (get_eq v)]
  simp only [hp, hr]
  rfl

theorem promoteReplica_eq (h : v.Consistent) (hp : v.primary? s = none) {r : Copy}
    (hbest : v.bestReplica? s = some r) (hnode : r.node = some n) :
    View.promoteReplica s v =
      .ok (some n) (((v.promote n r).demoteSlots s).noted (.promoted s n)) := by
  obtain ⟨k, hk, hr, hprim, -, -⟩ := bestReplica?_spec h hbest
  obtain rfl : k = n := Option.some_inj.mp (hk.symm.trans hnode)
  obtain ⟨rfl, -⟩ := h.own hr
  have hpromote : r.promote = .ok r.asPrimary := Copy.promote_eq_ok_iff.mpr ⟨hprim, rfl⟩
  have hreplace := replaceCopy_eq (c := r.asPrimary) h.indexed hnode hr
  rw [View.promoteReplica, bind_ok (get_eq v)]
  simp only [hp, hbest, hnode, Option.getD_some]
  rw [bind_ok (attempt_eq hpromote), bind_ok hreplace]
  cases hpeer : r.peer with
  | none =>
    simp only
    rw [promote, hpeer]
    rfl
  | some m =>
    obtain ⟨t, ht, -, htprim, hne⟩ := (h.linked _).exists_peer hr hpeer
    obtain ⟨htshard, htnode⟩ := h.own ht
    have hstill : (v.put k r.asPrimary).copyOn? r.shard m = some t :=
      (copyOn?_put_elsewhere v _ _ hne).trans ht
    have hreplace' := replaceCopy_eq (c := t.asPrimary) (h.indexed.put k r.asPrimary) htnode
      ((congrArg (fun s => (v.put k r.asPrimary).copyOn? s m) htshard).trans hstill)
    have hpromote' : t.promote = .ok t.asPrimary :=
      Copy.promote_eq_ok_iff.mpr ⟨htprim.trans hprim, rfl⟩
    simp only
    rw [bind_ok (expectCopy_eq hstill), bind_ok (attempt_eq hpromote'), bind_ok hreplace', promote,
      hpeer]
    simp only [ht]
    rfl

/-- The view after the best replica took over, if there is one. -/
def takeOver (v : View) (s : ShardId) : View :=
  match v.bestReplica? s with
  | some r => ((v.promote (r.node.getD "") r).demoteSlots s).noted (.promoted s (r.node.getD ""))
  | none => v

/-- What a replica that takes over does to the view, if one does. -/
theorem takeOver_cases (h : v.Consistent) (s : ShardId) :
    (v.promotable s = [] ∧ v.takeOver s = v) ∨
      ∃ r n, v.bestReplica? s = some r ∧ r.shard = s ∧ v.copyOn? r.shard n = some r ∧
        r.primary = false ∧ r.isActive = true ∧ v.isLive n = true ∧
        v.takeOver s = ((v.promote n r).demoteSlots r.shard).noted (.promoted s n) := by
  cases hbest : v.bestReplica? s with
  | none => exact .inl ⟨bestReplica?_eq_none_iff.mp hbest, by simp only [takeOver, hbest]⟩
  | some r =>
    obtain ⟨n, hnode, hr, hprim, hactive, hlive⟩ := bestReplica?_spec h hbest
    obtain ⟨rfl, -⟩ := h.own hr
    exact .inr ⟨r, n, rfl, rfl, hr, hprim, hactive, hlive, by
      simp only [takeOver, hbest, hnode, Option.getD_some]⟩

theorem promoteReplica_run (h : v.Consistent) (hp : v.primary? s = none) :
    ∃ o, View.promoteReplica s v = .ok o (v.takeOver s) := by
  cases hbest : v.bestReplica? s with
  | none => exact ⟨none, by rw [promoteReplica_eq_none hp hbest, takeOver, hbest]⟩
  | some r =>
    obtain ⟨n, hnode, -⟩ := bestReplica?_spec h hbest
    refine ⟨some n, ?_⟩
    rw [promoteReplica_eq h hp hbest hnode]
    simp only [takeOver, hbest, hnode, Option.getD_some]

end View

end ShardAllocation
