/-
From a stored table to a working view.

The copies of a table can be loaded when they have stored shapes and no node occurs twice
among those of one shard, moves included.  Loading then succeeds, and the view has the
copies of the table on their nodes and its slots.

* `Loadable` — the copies that can be loaded;
* `Loaded` — what the view has to do with the copies;
* `ofTable_eq` — a table of loadable copies has a view.
-/
import ShardAllocation.Proofs.Routing.Sound

namespace ShardAllocation

namespace View

variable {v w : View} {s : ShardId} {n m : NodeId} {c d : Copy} {members : List NodeId}

/-! ### One copy -/

/-- The view with a stored copy entered. -/
def enter (v : View) (c : Copy) : View :=
  if c.isUnassigned then v.queue c
  else
    match c.relocationTarget? with
    | some t => (v.put (c.node.getD "") c).put (t.node.getD "") t
    | none => v.put (c.node.getD "") c

/-- A stored copy waits, stays, or moves. -/
theorem enter_cases (h : c.Stored) (v : View) :
    (c.state = .unassigned ∧ c.nodes = [] ∧ v.enter c = v.queue c) ∨
    (∃ n, c.node = some n ∧ c.peer = none ∧ (c.state = .initializing ∨ c.state = .started) ∧
      v.enter c = v.put n c) ∨
    (∃ n m, c.node = some n ∧ c.peer = some m ∧ m ≠ n ∧ c.state = .relocating ∧
      c.settled.departing m = c ∧ c.relocationTarget? = some (c.settled.arriving m) ∧
      v.enter c = (v.put n c).put m (c.settled.arriving m)) := by
  obtain ⟨shard, primary, state, node, peer, info⟩ := c
  cases state with
  | unassigned =>
    obtain ⟨rfl, rfl, -⟩ := h
    exact .inl ⟨rfl, rfl, rfl⟩
  | initializing =>
    obtain ⟨hnode, rfl, -⟩ := h
    obtain ⟨n, rfl⟩ := Option.isSome_iff_exists.mp hnode
    exact .inr (.inl ⟨n, rfl, rfl, .inl rfl, rfl⟩)
  | started =>
    obtain ⟨hnode, rfl, -⟩ := h
    obtain ⟨n, rfl⟩ := Option.isSome_iff_exists.mp hnode
    exact .inr (.inl ⟨n, rfl, rfl, .inr rfl, rfl⟩)
  | relocating =>
    obtain ⟨n, m, rfl, rfl, hne, -⟩ := h
    exact .inr (.inr ⟨n, m, rfl, rfl, hne.symm, rfl, rfl, rfl, rfl⟩)

/-- Only a copy that is unassigned waits once it is entered. -/
theorem unassigned_enter (h : c.Stored) (v : View) :
    (v.enter c).unassigned = v.unassigned ++ [c].filter (·.isUnassigned) := by
  rcases enter_cases h v with ⟨hs, -, heq⟩ | ⟨n, -, -, hs, heq⟩ | ⟨n, m, -, -, -, hs, -, -, heq⟩
  · rw [heq]
    simp [queue, Copy.isUnassigned, hs]
  · have hassigned : c.isUnassigned = false := by
      rcases hs with hs | hs <;> simp [Copy.isUnassigned, hs]
    rw [heq]
    simp [hassigned]
  · rw [heq]
    simp [Copy.isUnassigned, hs]

theorem frame_enter (h : c.Stored) (v : View) :
    (v.enter c).live = v.live ∧ (v.enter c).transitions = v.transitions := by
  rcases enter_cases h v with ⟨-, -, heq⟩ | ⟨n, -, -, -, heq⟩ | ⟨n, m, -, -, -, -, -, -, heq⟩ <;>
    rw [heq] <;> exact ⟨rfl, rfl⟩

/-- No copy of the shard is on a node that the copy occupies. -/
def Vacant (v : View) (c : Copy) : Prop := ∀ n ∈ c.nodes, v.copyOn? c.shard n = none

theorem load_eq (h : c.Stored) (hvacant : v.Vacant c) : load c v = .ok () (v.enter c) := by
  rcases enter_cases h v with ⟨hs, -, heq⟩ | ⟨n, hnode, hpeer, hs, heq⟩ |
    ⟨n, m, hnode, hpeer, hne, hs, -, htarget, heq⟩
  · rw [heq, load, if_pos (by simp [Copy.isUnassigned, hs])]
    rfl
  · have hassigned : ¬ c.isUnassigned = true := by
      rcases hs with hs | hs <;> simp [Copy.isUnassigned, hs]
    have htarget : c.relocationTarget? = none := by
      rcases hs with hs | hs <;> simp [Copy.relocationTarget?, Copy.isRelocating, hs]
    have hadd := addCopy_eq hnode (hvacant n (by simp [Copy.nodes, hnode]))
    rw [heq, load, if_neg hassigned, bind_ok hadd, htarget]
    rfl
  · have hassigned : ¬ c.isUnassigned = true := by simp [Copy.isUnassigned, hs]
    have hadd := addCopy_eq hnode (hvacant n (by simp [Copy.nodes, hnode]))
    have hempty : (v.put n c).copyOn? c.shard m = none :=
      (copyOn?_put_elsewhere v c _ hne).trans (hvacant m (by simp [Copy.nodes, hpeer]))
    have hsecond : addCopy (c.settled.arriving m) (v.put n c) =
        .ok () ((v.put n c).put m (c.settled.arriving m)) := addCopy_eq rfl hempty
    rw [heq, load, if_neg hassigned, bind_ok hadd, htarget]
    exact hsecond

/-- The copies after one more was entered: those before, the copy itself and the target of
its move. -/
theorem copyOn?_enter (h : c.Stored) (hvacant : v.Vacant c) :
    (v.enter c).copyOn? s n = some d ↔
      v.copyOn? s n = some d ∨ c.shard = s ∧
        (c.node = some n ∧ d = c ∨ c.peer = some n ∧ c.relocationTarget? = some d) := by
  rcases enter_cases h v with ⟨-, hnodes, heq⟩ | ⟨k, hnode, hpeer, -, heq⟩ |
    ⟨k, m, hnode, hpeer, hne, -, -, htarget, heq⟩
  · -- a slot is on no node
    have hnode : c.node = none ∧ c.peer = none := by simpa [Copy.nodes] using hnodes
    rw [heq, hnode.1, hnode.2]
    simp [queue, copyOn?]
  · -- a copy on one node
    have hk := hvacant k (by simp [Copy.nodes, hnode])
    rw [heq, copyOn?_put, hnode, hpeer]
    by_cases hs : s = c.shard
    · subst hs
      rw [if_pos rfl, Layout.fill_eq_some]
      by_cases hn : n = k
      · subst hn
        simp [hk]
      · simp [hn, Ne.symm hn]
    · simp [hs, Ne.symm hs]
  · -- both halves of a move
    have hk := hvacant k (by simp [Copy.nodes, hnode])
    have hm := hvacant m (by simp [Copy.nodes, hpeer])
    have hput := copyOn?_put (v.put k c) m (c.settled.arriving m) s
    have hshard : (c.settled.arriving m).shard = c.shard := rfl
    rw [hshard] at hput
    rw [heq, hput, copyOn?_put, hnode, hpeer, htarget]
    by_cases hs : s = c.shard
    · subst hs
      rw [if_pos rfl, if_pos rfl, Layout.fill_eq_some, Layout.fill_eq_some]
      by_cases hn : n = m
      · subst hn
        simp [hm, Ne.symm hne, @eq_comm _ d]
      · by_cases hnk : n = k
        · subst hnk
          simp [hk, hn, hne]
        · simp [hn, hnk, Ne.symm hn, Ne.symm hnk]
    · simp [hs, Ne.symm hs]

theorem Consistent.enter (hv : v.Consistent) (h : c.Stored) (hvacant : v.Vacant c) :
    (v.enter c).Consistent := by
  rcases enter_cases h v with ⟨hs, -, heq⟩ | ⟨n, hnode, hpeer, hs, heq⟩ |
    ⟨n, m, hnode, hpeer, hne, hs, hdepart, -, heq⟩
  · rw [heq]
    exact hv.queue hs
  · have hn := hvacant n (by simp [Copy.nodes, hnode])
    rw [heq]
    refine hv.of_linked (hv.indexed.put n c) rfl (fun _ ht => copyOn?_put_of_ne ht) ?_
    rw [copyOn?_put_self]
    exact (hv.linked _).fill hn ⟨rfl, hnode⟩ hs hpeer
  · have hn := hvacant n (by simp [Copy.nodes, hnode])
    have hm := hvacant m (by simp [Copy.nodes, hpeer])
    rw [heq]
    refine hv.of_linked (s := c.shard) ((hv.indexed.put n c).put m _) rfl (fun _ ht =>
      (copyOn?_put_of_ne (c := c.settled.arriving m) ht).trans (copyOn?_put_of_ne ht)) ?_
    -- the two halves are those of a started copy that departs
    have hstarted : Layout.Linked c.shard (Layout.fill (v.copyOn? c.shard) n c.settled) :=
      (hv.linked _).fill hn ⟨rfl, hnode⟩ (.inr rfl) rfl
    have hmoved := hstarted.depart (n := n) (m := m) (c := c.settled) (by simp [Layout.fill]) rfl
      (by simp [Layout.fill, hne, hm])
    have hlayout : ((v.put n c).put m (c.settled.arriving m)).copyOn? c.shard =
        Layout.depart (Layout.fill (v.copyOn? c.shard) n c.settled) n m c.settled := by
      funext k
      have hput := congrFun (copyOn?_put_self (v.put n c) m (c.settled.arriving m)) k
      refine hput.trans ?_
      have hfirst := congrFun (copyOn?_put_self v n c) k
      simp only [Layout.fill, Layout.depart] at hfirst ⊢
      by_cases hkm : k = m
      · rw [if_pos hkm, if_neg (hkm ▸ hne), if_pos hkm]
      · rw [if_neg hkm, if_neg hkm]
        refine hfirst.trans ?_
        by_cases hkn : k = n
        · rw [if_pos hkn, if_pos hkn, hdepart]
        · rw [if_neg hkn, if_neg hkn, if_neg hkn]
    rw [hlayout]
    exact hmoved

theorem Shaped.enter (hv : v.Shaped) (h : c.Stored) (hvacant : v.Vacant c) :
    (v.enter c).Shaped := by
  have hshaped := (Copy.stored_iff.mp h).1
  refine ⟨fun {s n d} hd => ?_, fun d hd => ?_⟩
  · rcases (copyOn?_enter h hvacant).mp hd with hd | ⟨-, ⟨-, rfl⟩ | ⟨-, htarget⟩⟩
    · exact hv.held hd
    · exact hshaped
    · exact hshaped.relocationTarget? htarget
  · rw [unassigned_enter h] at hd
    rcases List.mem_append.mp hd with hd | hd
    · exact hv.waiting d hd
    · exact List.mem_singleton.mp (List.mem_filter.mp hd).1 ▸ hshaped

theorem roleCount_enter (hv : v.Consistent) (h : c.Stored) (hvacant : v.Vacant c) (s : ShardId)
    (q : Bool → Bool) : (v.enter c).roleCount s q = v.roleCount s q + c.share s q := by
  have hslot : c.isSlotOf q = q c.primary := by
    simp [Copy.isSlotOf, (Copy.stored_iff.mp h).2]
  rcases enter_cases h v with ⟨-, -, heq⟩ | ⟨n, hnode, hpeer, -, heq⟩ |
    ⟨n, m, hnode, hpeer, hne, -, -, -, heq⟩
  · rw [heq, roleCount_queue]
  · have hn := hvacant n (by simp [Copy.nodes, hnode])
    rw [heq, roleCount_put hv.indexed hn, hslot, Copy.share]
  · have hn := hvacant n (by simp [Copy.nodes, hnode])
    have hm : (v.put n c).copyOn? (c.settled.arriving m).shard m = none :=
      (copyOn?_put_elsewhere v c _ hne).trans (hvacant m (by simp [Copy.nodes, hpeer]))
    -- the target of the move is no slot
    have htarget : (c.settled.arriving m).isSlotOf q = false := by
      simp [Copy.isSlotOf, Copy.arriving, Copy.settled, Copy.isRelocationTarget,
        Copy.isInitializing, hnode]
    rw [heq, roleCount_put (hv.indexed.put n c) hm, roleCount_put hv.indexed hn, hslot, htarget,
      Bool.and_false, Bool.toNat_false, Nat.add_zero, Copy.share]

theorem Covers.enter {P : NodeId → Prop} (hv : v.Covers P) (h : c.Stored) :
    (v.enter c).Covers P := by
  rcases enter_cases h v with ⟨-, -, heq⟩ | ⟨n, -, -, -, heq⟩ | ⟨n, m, -, -, -, -, -, -, heq⟩
  · rw [heq]
    exact hv
  · rw [heq]
    exact hv.put n c
  · rw [heq]
    exact (hv.put n c).put m _

/-- The only nodes that come in are those of the copy. -/
theorem NodesIn.enter {P : NodeId → Prop} (hv : v.NodesIn P) (h : c.Stored) :
    (v.enter c).NodesIn fun k => P k ∨ k ∈ c.nodes := by
  have hold : v.NodesIn fun k => P k ∨ k ∈ c.nodes := fun k hk => .inl (hv k hk)
  rcases enter_cases h v with ⟨-, -, heq⟩ | ⟨n, hn, -, -, heq⟩ |
    ⟨n, m, hn, hm, -, -, -, -, heq⟩
  · rw [heq]
    exact hold
  · rw [heq]
    exact hold.put (.inr (Copy.mem_nodes.mpr (.inl hn))) c
  · rw [heq]
    have hsource := hold.put (.inr (Copy.mem_nodes.mpr (.inl hn))) c
    exact hsource.put (.inr (Copy.mem_nodes.mpr (.inr hm))) _

/-! ### All copies -/

/-- The copies of a table that can be loaded. -/
structure Loadable (copies : List Copy) : Prop where
  stored : ∀ c ∈ copies, c.Stored
  apart : copies.Pairwise fun c d => c.shard = d.shard → c.nodes.Disjoint d.nodes

/-- The view of a cluster with some members that has loaded some copies. -/
structure Loaded (members : List NodeId) (copies : List Copy) (v : View) : Prop where
  consistent : v.Consistent
  shaped : v.Shaped
  live : v.live = SortedSet.ofList members
  unassigned : v.unassigned = copies.filter (·.isUnassigned)
  transitions : v.transitions = []
  copyOn?_iff : ∀ s n c, v.copyOn? s n = some c ↔ ∃ d ∈ copies, d.shard = s ∧
    (d.node = some n ∧ c = d ∨ d.peer = some n ∧ d.relocationTarget? = some c)
  roleCount_eq : ∀ s q, v.roleCount s q = copies.countP fun c => c.shard == s && q c.primary
  covers : v.Covers (· ∈ members)
  nodesIn : v.NodesIn fun n => n ∈ members ∨ ∃ c ∈ copies, n ∈ c.nodes

/-- Every member is in the view. -/
theorem Loaded.covers_isLive {members : List NodeId} {copies : List Copy} {v : View}
    (h : Loaded members copies v) : v.Covers fun k => v.isLive k = true := by
  intro k hk
  rw [isLive, h.live, SortedSet.contains_ofList, decide_eq_true_eq] at hk
  exact h.covers k hk

theorem copyOn?_ofMembers (members : List NodeId) (s : ShardId) (n : NodeId) :
    (ofMembers members).copyOn? s n = none := by
  unfold copyOn? ofMembers
  cases hget : (SortedMap.ofList (members.map fun n =>
    (n, (SortedMap.empty : SortedMap ShardId Copy)))).get? n with
  | none => rfl
  | some held =>
    obtain ⟨k, -, heq⟩ := List.mem_map.mp (SortedMap.mem_of_get?_ofList hget)
    cases heq
    rfl

theorem contains_nodes_ofMembers (members : List NodeId) (n : NodeId) :
    (ofMembers members).nodes.contains n = decide (n ∈ members) := by
  show (SortedMap.ofList _).contains n = _
  rw [SortedMap.contains_ofList, List.map_map]
  simp [Function.comp_def]

theorem loaded_ofMembers (members : List NodeId) : Loaded members [] (ofMembers members) := by
  have hnone := copyOn?_ofMembers members
  have hlayout : ∀ s, (ofMembers members).copyOn? s = fun _ => none := fun s =>
    funext fun n => hnone s n
  refine ⟨⟨⟨fun s n => ?_, fun hget => by cases hget⟩, fun s => ?_, fun c hc => ?_⟩,
    ⟨fun hc => ?_, fun c hc => ?_⟩, rfl, rfl, rfl, fun s n c => ?_, fun s q => rfl,
    fun n hn => ?_, fun n hn => .inl ?_⟩
  · rw [hnone]
    rfl
  · rw [hlayout]
    constructor <;> exact fun h => by cases h
  · exact absurd hc List.not_mem_nil
  · rw [hnone] at hc
    cases hc
  · exact absurd hc List.not_mem_nil
  · rw [hnone]
    simp
  · rw [contains_nodes_ofMembers, decide_eq_true hn]
  · rw [contains_nodes_ofMembers] at hn
    exact of_decide_eq_true hn

theorem Loaded.vacant {copies : List Copy} (h : Loaded members copies v)
    (happart : ∀ d ∈ copies, d.shard = c.shard → d.nodes.Disjoint c.nodes) : v.Vacant c := by
  intro n hn
  by_contra hne
  obtain ⟨e, he⟩ := Option.ne_none_iff_exists'.mp hne
  obtain ⟨d, hd, hshard, hat⟩ := (h.copyOn?_iff _ _ _).mp he
  have hmem : n ∈ d.nodes := Copy.mem_nodes.mpr (hat.imp And.left And.left)
  exact happart d hd hshard hmem hn

theorem Loaded.enter {copies : List Copy} (h : Loaded members copies v) (hc : c.Stored)
    (hvacant : v.Vacant c) : Loaded members (copies ++ [c]) (v.enter c) := by
  obtain ⟨hlive, htransitions⟩ := frame_enter hc v
  constructor
  case consistent => exact h.consistent.enter hc hvacant
  case shaped => exact h.shaped.enter hc hvacant
  case live => exact hlive.trans h.live
  case unassigned => rw [unassigned_enter hc, h.unassigned, List.filter_append]
  case transitions => exact htransitions.trans h.transitions
  case copyOn?_iff =>
    intro s n d
    rw [copyOn?_enter hc hvacant, h.copyOn?_iff]
    simp only [List.mem_append, List.mem_singleton]
    constructor
    · rintro (⟨e, he, hrest⟩ | hrest)
      · exact ⟨e, .inl he, hrest⟩
      · exact ⟨c, .inr rfl, hrest⟩
    · rintro ⟨e, he | rfl, hrest⟩
      · exact .inl ⟨e, he, hrest⟩
      · exact .inr hrest
  case roleCount_eq =>
    intro s q
    rw [roleCount_enter h.consistent hc hvacant, h.roleCount_eq, List.countP_append,
      List.countP_singleton, Copy.share]
    cases c.shard == s && q c.primary <;> rfl
  case covers => exact h.covers.enter hc
  case nodesIn =>
    intro n hn
    rcases h.nodesIn.enter hc n hn with (hmem | ⟨d, hd, hmem⟩) | hmem
    · exact .inl hmem
    · exact .inr ⟨d, List.mem_append_left _ hd, hmem⟩
    · exact .inr ⟨c, List.mem_append_right _ (List.mem_singleton_self c), hmem⟩

theorem load_all {loaded rest : List Copy} (h : Loaded members loaded v)
    (hall : Loadable (loaded ++ rest)) :
    ∃ w, rest.forM load v = .ok () w ∧ Loaded members (loaded ++ rest) w := by
  induction rest generalizing loaded v with
  | nil => exact ⟨v, rfl, by rwa [List.append_nil]⟩
  | cons c rest ih =>
    -- the copies that are loaded leave the nodes of the next one vacant
    have hstored := hall.stored c (List.mem_append_right _ List.mem_cons_self)
    have hvacant : v.Vacant c := by
      refine h.vacant fun d hd hshard => ?_
      have happart := (List.pairwise_append.mp hall.apart).2.2
      exact happart d hd c List.mem_cons_self hshard
    have hsplit : loaded ++ c :: rest = loaded ++ [c] ++ rest := by simp
    rw [hsplit] at hall ⊢
    obtain ⟨w, hrun, hw⟩ := ih (h.enter hstored hvacant) hall
    refine ⟨w, ?_, hw⟩
    show (load c >>= fun _ => rest.forM load) v = _
    rw [bind_ok (load_eq hstored hvacant)]
    exact hrun

theorem ofTable_eq {table : RoutingTable} (h : Loadable table.copies) (members : List NodeId) :
    ∃ v, ofTable members table = .ok v ∧ Loaded members table.copies v := by
  obtain ⟨v, hrun, hv⟩ := load_all (loaded_ofMembers members) (by rwa [List.nil_append])
  refine ⟨v, ?_, hv⟩
  have hrun : (table.copies.forM load).run (ofMembers members) = .ok () v := hrun
  rw [ofTable, hrun]

end View

end ShardAllocation
