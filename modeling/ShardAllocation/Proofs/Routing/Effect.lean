/-
What the changes of a pass make of the working view.

Every change is written here as a total function on views.  A view is `Consistent` when
its indexes are in step, the layout of every shard is linked and the slots that wait are
unassigned; every change keeps a consistent view consistent, and acts on the layout of
its own shard only.

* `layout_settle`, `layout_vacate`, `layout_depart`, `layout_promote`, `layout_occupy` —
  the layouts after a change;
* `Consistent.settle`, `Consistent.vacate`, ... — the changes keep the view consistent;
* `Shaped.settle`, `NodesIn.settle`, `Covers.settle`, ... — so do the shapes of the copies and
  bounds on the nodes that the view knows.
-/
import ShardAllocation.Proofs.Routing.Index

namespace ShardAllocation

namespace View

/-! ### The changes as functions -/

/-- The view without the other half of the move of a copy. -/
def withoutPeer (v : View) (c : Copy) : View :=
  match c.peer with
  | some m => v.take c.shard m
  | none => v

/-- The copy on the node is started; the other half of its move is gone. -/
def settle (v : View) (n : NodeId) (c : Copy) : View := (v.withoutPeer c).put n c.settled

/-- The copy is gone from the node, and the other half of its move with it. -/
def vacate (v : View) (n : NodeId) (c : Copy) : View := (v.withoutPeer c).take c.shard n

/-- The copy on `n` moves to `m`. -/
def depart (v : View) (n m : NodeId) (c : Copy) : View :=
  (v.put m (c.arriving m)).put n (c.departing m)

/-- The copy on the node is the primary, and so is the other half of its move. -/
def promote (v : View) (n : NodeId) (c : Copy) : View :=
  match c.peer with
  | none => v.put n c.asPrimary
  | some m =>
    match v.copyOn? c.shard m with
    | none => v.put n c.asPrimary
    | some t => (v.put n c.asPrimary).put m t.asPrimary

/-- The slot is filled on the node. -/
def occupy (v : View) (n : NodeId) (c : Copy) : View :=
  { v.put n (c.placedOn n) with unassigned := v.unassigned.erase c }

/-- One more slot waits. -/
def queue (v : View) (slot : Copy) : View := { v with unassigned := v.unassigned ++ [slot] }

/-- The primary slots of a shard become replica slots. -/
def demoteSlots (v : View) (s : ShardId) : View :=
  { v with unassigned := v.unassigned.map fun c =>
      if c.shard == s && c.primary then c.demote else c }

/-- The node is no longer part of the view. -/
def forget (v : View) (n : NodeId) : View :=
  { v with nodes := v.nodes.erase n, departed := SortedSet.add v.departed n }

/-- One more step is noted. -/
def noted (v : View) (t : Transition) : View := { v with transitions := v.transitions ++ [t] }

variable {v w : View} {s : ShardId} {n m : NodeId} {c d : Copy}

/-! ### What they leave alone -/

/-- The two views have the same members, slots and steps. -/
structure SameFrame (v w : View) : Prop where
  live : w.live = v.live
  unassigned : w.unassigned = v.unassigned
  transitions : w.transitions = v.transitions

theorem sameFrame_withoutPeer (v : View) (c : Copy) : SameFrame v (v.withoutPeer c) := by
  unfold withoutPeer
  split <;> exact ⟨rfl, rfl, rfl⟩

theorem sameFrame_settle (v : View) (n : NodeId) (c : Copy) : SameFrame v (v.settle n c) :=
  have h := sameFrame_withoutPeer v c
  ⟨h.live, h.unassigned, h.transitions⟩

theorem departed_settle (v : View) (n : NodeId) (c : Copy) :
    (v.settle n c).departed = v.departed := by
  show (v.withoutPeer c).departed = v.departed
  unfold withoutPeer
  split <;> rfl

theorem sameFrame_vacate (v : View) (n : NodeId) (c : Copy) : SameFrame v (v.vacate n c) :=
  have h := sameFrame_withoutPeer v c
  ⟨h.live, h.unassigned, h.transitions⟩

theorem sameFrame_depart (v : View) (n m : NodeId) (c : Copy) : SameFrame v (v.depart n m c) :=
  ⟨rfl, rfl, rfl⟩

theorem sameFrame_promote (v : View) (n : NodeId) (c : Copy) : SameFrame v (v.promote n c) := by
  unfold promote
  split
  · exact ⟨rfl, rfl, rfl⟩
  · split <;> exact ⟨rfl, rfl, rfl⟩

/-! ### The layouts after a change -/

theorem copyOn?_withoutPeer (v : View) (c : Copy) (s : ShardId) (k : NodeId) :
    (v.withoutPeer c).copyOn? s k =
      if s = c.shard ∧ c.peer = some k then none else v.copyOn? s k := by
  unfold withoutPeer
  split
  next m hp => simp only [copyOn?_take, hp, Option.some_inj, @eq_comm _ m]
  next hp => simp [hp]

theorem layout_settle (v : View) (n : NodeId) (c : Copy) :
    (v.settle n c).copyOn? c.shard = Layout.settle (v.copyOn? c.shard) n c := by
  funext k
  have hput := congrFun (copyOn?_put_self (v.withoutPeer c) n c.settled) k
  refine hput.trans ?_
  simp only [Layout.fill, Layout.settle]
  split
  · rfl
  · exact (copyOn?_withoutPeer v c c.shard k).trans (by simp)

theorem layout_vacate (v : View) (n : NodeId) (c : Copy) :
    (v.vacate n c).copyOn? c.shard = Layout.vacate (v.copyOn? c.shard) n c := by
  funext k
  simp [vacate, copyOn?_take, copyOn?_withoutPeer, Layout.vacate]

theorem layout_depart (v : View) (n m : NodeId) (c : Copy) :
    (v.depart n m c).copyOn? c.shard = Layout.depart (v.copyOn? c.shard) n m c := by
  funext k
  have hout := congrFun (copyOn?_put_self (v.put m (c.arriving m)) n (c.departing m)) k
  have hin := congrFun (copyOn?_put_self v m (c.arriving m)) k
  refine hout.trans ?_
  simp only [Layout.fill, Layout.depart] at hin ⊢
  split
  · rfl
  · exact hin

theorem layout_promote (hlinked : Layout.Linked c.shard (v.copyOn? c.shard))
    (hc : v.copyOn? c.shard n = some c) :
    (v.promote n c).copyOn? c.shard = Layout.promote (v.copyOn? c.shard) n c := by
  funext k
  have hfirst := congrFun (copyOn?_put_self v n c.asPrimary) k
  unfold promote
  split
  next hp =>
    refine hfirst.trans ?_
    by_cases hk : k = n
    · subst hk
      simp [Layout.fill, Layout.promote, hc]
    · simp [Layout.fill, Layout.promote, hk, hp, Copy.asPrimary]
  next m hp =>
    obtain ⟨t, ht, -, -, hne⟩ := hlinked.exists_peer hc hp
    have hshard : t.asPrimary.shard = c.shard := (hlinked.own ht).1
    simp only [ht]
    -- the second entry is on `m`, so the first one is still what a lookup on `n` finds
    have hsecond := congrFun (copyOn?_put_self (v.put n c.asPrimary) m t.asPrimary) k
    rw [hshard] at hsecond
    refine hsecond.trans ?_
    by_cases hkm : k = m
    · subst hkm
      simp [Layout.fill, Layout.promote, hp, ht]
    · have hpk : c.peer ≠ some k := fun h => hkm (Option.some_inj.mp (h.symm.trans hp))
      rw [Layout.fill, if_neg hkm]
      refine hfirst.trans ?_
      by_cases hk : k = n
      · subst hk
        simp [Layout.fill, Layout.promote, hc]
      · simp [Layout.fill, Layout.promote, hk, hpk, Copy.asPrimary]

theorem layout_occupy (v : View) (n : NodeId) (c : Copy) :
    (v.occupy n c).copyOn? c.shard = Layout.fill (v.copyOn? c.shard) n (c.placedOn n) :=
  copyOn?_put_self v n (c.placedOn n)

theorem copyOn?_withoutPeer_of_ne (h : s ≠ c.shard) :
    (v.withoutPeer c).copyOn? s = v.copyOn? s := by
  funext k
  simp [copyOn?_withoutPeer, h]

theorem copyOn?_put_of_ne (h : s ≠ c.shard) : (v.put n c).copyOn? s = v.copyOn? s := by
  rw [copyOn?_put, if_neg h]

theorem copyOn?_settle_of_ne (h : s ≠ c.shard) :
    (v.settle n c).copyOn? s = v.copyOn? s :=
  (copyOn?_put_of_ne (c := c.settled) h).trans (copyOn?_withoutPeer_of_ne h)

theorem copyOn?_vacate_of_ne (h : s ≠ c.shard) :
    (v.vacate n c).copyOn? s = v.copyOn? s :=
  (copyOn?_take_of_ne _ h n).trans (copyOn?_withoutPeer_of_ne h)

theorem copyOn?_depart_of_ne (h : s ≠ c.shard) :
    (v.depart n m c).copyOn? s = v.copyOn? s :=
  (copyOn?_put_of_ne (c := c.departing m) h).trans (copyOn?_put_of_ne (c := c.arriving m) h)

theorem copyOn?_promote_of_ne (hlinked : Layout.Linked c.shard (v.copyOn? c.shard))
    (h : s ≠ c.shard) : (v.promote n c).copyOn? s = v.copyOn? s := by
  have hfirst : (v.put n c.asPrimary).copyOn? s = v.copyOn? s :=
    copyOn?_put_of_ne (c := c.asPrimary) h
  unfold promote
  split
  · exact hfirst
  · split
    · exact hfirst
    next t ht =>
      have hshard : t.asPrimary.shard = c.shard := (hlinked.own ht).1
      exact (copyOn?_put_of_ne (hshard ▸ h)).trans hfirst

theorem copyOn?_occupy_of_ne (h : s ≠ c.shard) :
    (v.occupy n c).copyOn? s = v.copyOn? s :=
  copyOn?_put_of_ne (c := c.placedOn n) h

theorem copyOn?_forget_of_empty (h : ∀ s, v.copyOn? s n = none) (s : ShardId) :
    (v.forget n).copyOn? s = v.copyOn? s := by
  funext k
  by_cases hk : k = n
  · subst hk
    rw [h s]
    simp [copyOn?, forget]
  · simp [copyOn?, forget, SortedMap.get?_erase_of_ne _ hk]

/-! ### Consistent views -/

/-- The indexes are in step, every layout is linked, and only unassigned copies wait. -/
structure Consistent (v : View) : Prop where
  indexed : v.Indexed
  linked : ∀ s, Layout.Linked s (v.copyOn? s)
  waiting : ∀ c ∈ v.unassigned, c.state = .unassigned

theorem Indexed.withoutPeer (h : v.Indexed) (c : Copy) : (v.withoutPeer c).Indexed := by
  unfold View.withoutPeer
  split
  · exact h.take ..
  · exact h

theorem Indexed.promote (h : v.Indexed) (n : NodeId) (c : Copy) : (v.promote n c).Indexed := by
  unfold View.promote
  split
  · exact h.put ..
  · split
    · exact h.put ..
    · exact (h.put ..).put ..

namespace Consistent

/-- A copy sits under its own shard and node. -/
theorem own (h : v.Consistent) (hc : v.copyOn? s n = some c) : c.shard = s ∧ c.node = some n :=
  (h.linked s).own hc

/-- Only the layout of one shard has to be looked at after a change of it. -/
theorem of_linked (h : v.Consistent) (hw : w.Indexed) (hframe : w.unassigned = v.unassigned)
    (hother : ∀ t, t ≠ s → w.copyOn? t = v.copyOn? t) (hs : Layout.Linked s (w.copyOn? s)) :
    w.Consistent := by
  refine ⟨hw, fun t => ?_, fun c hc => h.waiting c (hframe ▸ hc)⟩
  by_cases ht : t = s
  · exact ht ▸ hs
  · exact hother t ht ▸ h.linked t

theorem settle (h : v.Consistent) (hc : v.copyOn? c.shard n = some c) :
    (v.settle n c).Consistent :=
  h.of_linked ((h.indexed.withoutPeer c).put ..) (sameFrame_settle v n c).unassigned
    (fun _ ht => copyOn?_settle_of_ne ht) (layout_settle v n c ▸ (h.linked _).settle hc)

theorem vacate (h : v.Consistent) (hc : v.copyOn? c.shard n = some c) :
    (v.vacate n c).Consistent :=
  h.of_linked ((h.indexed.withoutPeer c).take ..) (sameFrame_vacate v n c).unassigned
    (fun _ ht => copyOn?_vacate_of_ne ht) (layout_vacate v n c ▸ (h.linked _).vacate hc)

theorem depart (h : v.Consistent) (hc : v.copyOn? c.shard n = some c)
    (hs : c.state = .started) (hm : v.copyOn? c.shard m = none) :
    (v.depart n m c).Consistent :=
  h.of_linked ((h.indexed.put ..).put ..) (sameFrame_depart v n m c).unassigned
    (fun _ ht => copyOn?_depart_of_ne ht) (layout_depart v n m c ▸ (h.linked _).depart hc hs hm)

theorem promote (h : v.Consistent) (hc : v.copyOn? c.shard n = some c) :
    (v.promote n c).Consistent :=
  h.of_linked (h.indexed.promote n c) (sameFrame_promote v n c).unassigned
    (fun _ ht => copyOn?_promote_of_ne (h.linked _) ht)
    (layout_promote (h.linked _) hc ▸ (h.linked _).promote hc)

theorem occupy (h : v.Consistent) (hn : v.copyOn? c.shard n = none) :
    (v.occupy n c).Consistent := by
  have hlinked : Layout.Linked c.shard ((v.occupy n c).copyOn? c.shard) := by
    rw [layout_occupy]
    exact (h.linked _).fill hn ⟨rfl, rfl⟩ (.inl rfl) rfl
  have hput : (v.put n (c.placedOn n)).Consistent :=
    h.of_linked (h.indexed.put ..) rfl (fun _ ht => copyOn?_put_of_ne (c := c.placedOn n) ht)
      hlinked
  exact ⟨⟨hput.indexed.contains_holdersOf, hput.indexed.nonempty⟩, hput.linked,
    fun d hd => h.waiting d (List.mem_of_mem_erase hd)⟩

theorem queue (h : v.Consistent) (hs : c.state = .unassigned) : (v.queue c).Consistent := by
  refine ⟨⟨h.indexed.contains_holdersOf, h.indexed.nonempty⟩, h.linked, fun d hd => ?_⟩
  rcases List.mem_append.mp hd with hd | hd
  · exact h.waiting d hd
  · exact List.mem_singleton.mp hd ▸ hs

theorem demoteSlots (h : v.Consistent) (s : ShardId) : (v.demoteSlots s).Consistent := by
  refine ⟨⟨h.indexed.contains_holdersOf, h.indexed.nonempty⟩, h.linked, fun d hd => ?_⟩
  obtain ⟨c, hc, rfl⟩ := List.mem_map.mp hd
  have hstate := h.waiting c hc
  split <;> exact hstate

theorem noted (h : v.Consistent) (t : Transition) : (v.noted t).Consistent :=
  ⟨⟨h.indexed.contains_holdersOf, h.indexed.nonempty⟩, h.linked, h.waiting⟩

theorem forget (h : v.Consistent) (hn : ∀ s, v.copyOn? s n = none) :
    (v.forget n).Consistent := by
  refine ⟨⟨fun s m => ?_, h.indexed.nonempty⟩, fun s => ?_, h.waiting⟩
  · rw [copyOn?_forget_of_empty hn]
    exact h.indexed.contains_holdersOf s m
  · rw [copyOn?_forget_of_empty hn]
    exact h.linked s

end Consistent

/-! ### Shaped views -/

/-- Every copy of the view, on a node or waiting, has the shape of its state. -/
structure Shaped (v : View) : Prop where
  held : ∀ {s n c}, v.copyOn? s n = some c → c.Shaped
  waiting : ∀ c ∈ v.unassigned, c.Shaped

namespace Shaped

theorem of_layout (h : v.Shaped) (hframe : w.unassigned = v.unassigned)
    (hother : ∀ t, t ≠ s → w.copyOn? t = v.copyOn? t)
    (hs : ∀ {k d}, w.copyOn? s k = some d → d.Shaped) : w.Shaped := by
  refine ⟨fun {t k d} hd => ?_, fun c hc => h.waiting c (hframe ▸ hc)⟩
  by_cases ht : t = s
  · exact hs (ht ▸ hd)
  · exact h.held (hother t ht ▸ hd)

theorem settle (h : v.Shaped) (hc : v.copyOn? c.shard n = some c)
    (hstate : c.state ≠ .unassigned) : (v.settle n c).Shaped := by
  refine h.of_layout (sameFrame_settle v n c).unassigned (fun _ ht => copyOn?_settle_of_ne ht)
    fun {k d} hd => ?_
  rw [layout_settle] at hd
  rcases Layout.settle_eq_some.mp hd with ⟨-, rfl⟩ | ⟨-, -, hd⟩
  · exact (h.held hc).settled hstate
  · exact h.held hd

theorem vacate (h : v.Shaped) : (v.vacate n c).Shaped := by
  refine h.of_layout (sameFrame_vacate v n c).unassigned (fun _ ht => copyOn?_vacate_of_ne ht)
    fun {k d} hd => ?_
  rw [layout_vacate] at hd
  exact h.held (Layout.vacate_eq_some.mp hd).2.2

theorem depart (h : v.Shaped) (hc : v.copyOn? c.shard n = some c) (hs : c.state = .started)
    (hm : c.node ≠ some m) : (v.depart n m c).Shaped := by
  refine h.of_layout (sameFrame_depart v n m c).unassigned (fun _ ht => copyOn?_depart_of_ne ht)
    fun {k d} hd => ?_
  rw [layout_depart] at hd
  rcases Layout.depart_eq_some.mp hd with ⟨-, rfl⟩ | ⟨-, -, rfl⟩ | ⟨-, -, hd⟩
  · exact (h.held hc).departing hs hm
  · exact Copy.Shaped.arriving hm
  · exact h.held hd

theorem promote (h : v.Shaped) (hlinked : Layout.Linked c.shard (v.copyOn? c.shard))
    (hc : v.copyOn? c.shard n = some c) : (v.promote n c).Shaped := by
  refine h.of_layout (sameFrame_promote v n c).unassigned
    (fun _ ht => copyOn?_promote_of_ne hlinked ht) fun {k d} hd => ?_
  rw [layout_promote hlinked hc] at hd
  obtain ⟨e, he, rfl⟩ := Layout.promote_eq_some.mp hd
  split
  · exact (h.held he).asPrimary
  · exact h.held he

theorem occupy (h : v.Shaped) : (v.occupy n c).Shaped := by
  have hput : (v.put n (c.placedOn n)).Shaped := by
    refine h.of_layout rfl (fun _ ht => copyOn?_put_of_ne (c := c.placedOn n) ht)
      fun {k d} hd => ?_
    rw [copyOn?_put_self] at hd
    rcases Layout.fill_eq_some.mp hd with ⟨-, rfl⟩ | ⟨-, hd⟩
    · exact Copy.Shaped.placedOn c n
    · exact h.held hd
  exact ⟨hput.held, fun d hd => h.waiting d (List.mem_of_mem_erase hd)⟩

theorem queue (h : v.Shaped) (hc : c.Shaped) : (v.queue c).Shaped := by
  refine ⟨h.held, fun d hd => ?_⟩
  rcases List.mem_append.mp hd with hd | hd
  · exact h.waiting d hd
  · exact List.mem_singleton.mp hd ▸ hc

theorem demoteSlots (h : v.Shaped) (s : ShardId) : (v.demoteSlots s).Shaped := by
  refine ⟨h.held, fun d hd => ?_⟩
  obtain ⟨c, hc, rfl⟩ := List.mem_map.mp hd
  have hshaped := h.waiting c hc
  split
  · exact hshaped.demote
  · exact hshaped

theorem noted (h : v.Shaped) (t : Transition) : (v.noted t).Shaped := ⟨h.held, h.waiting⟩

theorem forget (h : v.Shaped) (hn : ∀ s, v.copyOn? s n = none) : (v.forget n).Shaped := by
  refine ⟨fun {s k d} hd => ?_, h.waiting⟩
  rw [copyOn?_forget_of_empty hn] at hd
  exact h.held hd

end Shaped

/-! ### The nodes of a view -/

/-- Every node of the view satisfies `P`. -/
def NodesIn (P : NodeId → Prop) (v : View) : Prop := ∀ k, v.nodes.contains k = true → P k

namespace NodesIn

variable {P : NodeId → Prop}

theorem of_copyOn? (h : v.NodesIn P) (hc : v.copyOn? s n = some c) : P n :=
  h n (contains_nodes_of_copyOn? hc)

theorem put (h : v.NodesIn P) (hn : P n) (c : Copy) : (v.put n c).NodesIn P := by
  intro k hk
  rw [contains_nodes_put, Bool.or_eq_true, decide_eq_true_eq] at hk
  rcases hk with rfl | hk
  · exact hn
  · exact h k hk

theorem take (h : v.NodesIn P) (hn : P n) (s : ShardId) : (v.take s n).NodesIn P := by
  intro k hk
  rw [contains_nodes_take, Bool.or_eq_true, decide_eq_true_eq] at hk
  rcases hk with rfl | hk
  · exact hn
  · exact h k hk

theorem withoutPeer (h : v.NodesIn P) (hv : v.Consistent) (hc : v.copyOn? c.shard n = some c) :
    (v.withoutPeer c).NodesIn P := by
  unfold View.withoutPeer
  split
  next m hp =>
    -- the other half is in the view, and so is its node
    obtain ⟨d, hd, -⟩ := (hv.linked _).exists_peer hc hp
    exact h.take (h.of_copyOn? hd) c.shard
  next => exact h

theorem settle (h : v.NodesIn P) (hv : v.Consistent) (hc : v.copyOn? c.shard n = some c) :
    (v.settle n c).NodesIn P :=
  (h.withoutPeer hv hc).put (h.of_copyOn? hc) c.settled

theorem vacate (h : v.NodesIn P) (hv : v.Consistent) (hc : v.copyOn? c.shard n = some c) :
    (v.vacate n c).NodesIn P :=
  (h.withoutPeer hv hc).take (h.of_copyOn? hc) c.shard

theorem depart (h : v.NodesIn P) (hc : v.copyOn? c.shard n = some c) (hm : P m) :
    (v.depart n m c).NodesIn P :=
  (h.put hm (c.arriving m)).put (h.of_copyOn? hc) (c.departing m)

theorem promote (h : v.NodesIn P) (hc : v.copyOn? c.shard n = some c) :
    (v.promote n c).NodesIn P := by
  have hfirst := h.put (h.of_copyOn? hc) c.asPrimary
  unfold View.promote
  split
  · exact hfirst
  · split
    · exact hfirst
    next t ht => exact hfirst.put (h.of_copyOn? ht) t.asPrimary

theorem forget (h : v.NodesIn P) {Q : NodeId → Prop} (hQ : ∀ k, k ≠ n → P k → Q k) :
    (v.forget n).NodesIn Q := by
  intro k hk
  have hk : (v.nodes.erase n).contains k = true := hk
  rw [SortedMap.contains_erase, Bool.and_eq_true, decide_eq_true_eq] at hk
  exact hQ k hk.1 (h k hk.2)

end NodesIn

/-- Every node that satisfies `P` is in the view. -/
def Covers (P : NodeId → Prop) (v : View) : Prop := ∀ k, P k → v.nodes.contains k = true

namespace Covers

variable {P : NodeId → Prop}

theorem put (h : v.Covers P) (n : NodeId) (c : Copy) : (v.put n c).Covers P := fun k hk => by
  rw [contains_nodes_put, h k hk, Bool.or_true]

theorem take (h : v.Covers P) (s : ShardId) (n : NodeId) : (v.take s n).Covers P := fun k hk => by
  rw [contains_nodes_take, h k hk, Bool.or_true]

theorem withoutPeer (h : v.Covers P) (c : Copy) : (v.withoutPeer c).Covers P := by
  unfold View.withoutPeer
  split
  · exact h.take _ _
  · exact h

theorem settle (h : v.Covers P) (n : NodeId) (c : Copy) : (v.settle n c).Covers P :=
  (h.withoutPeer c).put n c.settled

theorem vacate (h : v.Covers P) (n : NodeId) (c : Copy) : (v.vacate n c).Covers P :=
  (h.withoutPeer c).take c.shard n

theorem depart (h : v.Covers P) (n m : NodeId) (c : Copy) : (v.depart n m c).Covers P :=
  (h.put m (c.arriving m)).put n (c.departing m)

theorem promote (h : v.Covers P) (n : NodeId) (c : Copy) : (v.promote n c).Covers P := by
  unfold View.promote
  split
  · exact h.put _ _
  · split
    · exact h.put _ _
    · exact (h.put _ _).put _ _

theorem forget (h : v.Covers P) (hn : ¬ P n) : (v.forget n).Covers P := by
  intro k hk
  have hne : k ≠ n := fun heq => hn (heq ▸ hk)
  show (v.nodes.erase n).contains k = true
  rw [SortedMap.contains_erase, h k hk, decide_eq_true hne]
  rfl

end Covers

end View

end ShardAllocation
