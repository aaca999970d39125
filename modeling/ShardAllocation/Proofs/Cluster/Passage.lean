/-
One pass over a well-formed snapshot.

A pass loads the snapshot, completes recoveries, makes a run of admitted changes and
freezes what it has.  `Passage` names the three passes on this way: the one that begins, the
one after the completed recoveries and the last one.

* `reroute_cases` — a pass succeeds, or `sameShard` is not among the deciders;
* `Passage.wellFormed` — the next snapshot is well formed;
* `Passage.mem_copies_iff` — its copies are the slots of the last view;
* `Passage.members_of_mem_nodes` — they are on members, and so are the targets of moves.
-/
import ShardAllocation.Proofs.Cluster.Begin
import ShardAllocation.Proofs.Pass.Phases
import ShardAllocation.Proofs.Routing.Freezing

namespace ShardAllocation

/-- The way of a pass from a snapshot to its result. -/
structure Passage (a : Allocator) (s : ClusterState) (t : Trigger) (r : RerouteResult)
    (p m q : Pass) : Prop where
  begins : Pass.begin s a.settings t.time = .ok p
  sound : p.Sound
  state : p.state = s
  history : p.history = s.history
  settings : p.settings = a.settings
  loaded : View.Loaded s.members.keys s.table.copies p.view
  phases : Allocator.phases a.deciders t p = .ok r.outcomes q
  completes : Pass.Runs (Pass.Policy.ofOutcomes a.deciders t r.outcomes).Completes p m
  admits : Pass.Runs (Pass.Policy.ofOutcomes a.deciders t r.outcomes).Admits m q
  course : ∃ l k, Pass.Course (Pass.Policy.ofOutcomes a.deciders t r.outcomes) p m l k q
  allLive : q.AllLive
  concluded : r = Allocator.conclude q r.outcomes

/-- The slots of a sound view make a well-formed entry. -/
theorem View.Sound.wellFormed_slots {v : View} {m : Metadata} {s : ShardId} (h : v.Sound m)
    (hknown : m.knows s = true) :
    ShardTable.WellFormed (m.capacity s) { shard := s, copies := v.slots s } where
  own := fun _ hc => h.shard_of_mem_slots hc
  primary := (View.countP_slots v s id).trans (h.primaries s hknown)
  atMost := Nat.le_trans (Nat.le_of_eq (View.length_slots v s)) (h.room s)
  stored := fun _ hc => h.stored_of_mem_slots hc
  apart := h.nodup_nodes_slots s

namespace Allocator

variable {a : Allocator} {s : ClusterState} {t : Trigger} {r : RerouteResult}

theorem validate_of_reroute (h : a.reroute s t = .ok r) : a.settings.validate = .ok () := by
  obtain ⟨⟨⟩, hset, -⟩ := bind_eq_ok_iff.mp h
  exact hset

theorem outcomes_conclude (p : Pass) (outcomes : List CommandOutcome) :
    (conclude p outcomes).outcomes = outcomes := by
  simp only [conclude]
  split <;> rfl

/-- A pass that succeeds concludes from what its phases left, whatever the snapshot. -/
theorem exists_conclude (h : a.reroute s t = .ok r) :
    ∃ p q outcomes, Pass.begin s a.settings t.time = .ok p ∧
      phases a.deciders t p = .ok outcomes q ∧ r = conclude { q with state := s } outcomes := by
  obtain ⟨⟨⟩, -, h⟩ := bind_eq_ok_iff.mp h
  obtain ⟨p, hbegin, h⟩ := bind_eq_ok_iff.mp h
  split at h
  next => cases h
  next outcomes q hphases =>
    obtain ⟨⟨⟩, -, h⟩ := bind_eq_ok_iff.mp h
    cases h
    exact ⟨p, q, outcomes, hbegin, hphases, rfl⟩

/-- Under settings that make sense a pass succeeds, or `sameShard` is not asked. -/
theorem reroute_cases (h : s.WellFormed) (hset : a.settings.validate = .ok ()) (t : Trigger) :
    (∃ r p m q, a.reroute s t = .ok r ∧ Passage a s t r p m q) ∨
      (Decider.sameShard ∉ a.deciders ∧ ∃ e, a.reroute s t = .error e) := by
  obtain ⟨p, hbegin, hp, hstate, hhistory, hsettings, hloaded⟩ := h.begin_eq a.settings t.time
  have hleads := Pass.phases_leads hp a.deciders t
  rw [Pass.Leads] at hleads
  split at hleads
  next outcomes q hphases =>
    obtain ⟨m, l, k, hcourse⟩ := hleads
    have hcompletes := hcourse.completes
    have hadmits := hcourse.admits
    have hlive := hcourse.allLive_last hp
    have hq := (hcourse.sound hp).2.2
    have hsame : q.state = s := hadmits.frame.1.trans (hcompletes.frame.1.trans hstate)
    -- the last view passes the check, for it is sound and knows members only
    have hvalid : q.view.validate s.metadata = .ok () := by
      have hcheck := hq.view.validate_eq (fun hget => hq.keyed hget) (Pass.allLive_iff.mp hlive)
      rwa [hsame] at hcheck
    have hreplaced : ({ q with state := s } : Pass) = q := by rw [← hsame]
    have hphases : (phases a.deciders t).run p = .ok outcomes q := hphases
    have houtcomes := outcomes_conclude q outcomes
    refine .inl ⟨conclude q outcomes, p, m, q, ?_, hbegin, hp, hstate, hhistory, hsettings,
      hloaded, ?_, ?_, ?_, ?_, hlive, ?_⟩
    · simp [reroute, hset, hbegin, hphases, hvalid, hreplaced, bind, Except.bind]
      rfl
    · rw [houtcomes]
      exact hphases
    · rw [houtcomes]
      exact hcompletes
    · rw [houtcomes]
      exact hadmits
    · rw [houtcomes]
      exact ⟨l, k, hcourse⟩
    · rw [houtcomes]
  next e q hphases =>
    have hphases : (phases a.deciders t).run p = .error e q := hphases
    refine .inr ⟨hleads, e, ?_⟩
    simp [reroute, hset, hbegin, hphases, bind, Except.bind]
    rfl

/-- With `sameShard` among the deciders a pass succeeds. -/
theorem exists_reroute (h : s.WellFormed) (hset : a.settings.validate = .ok ())
    (hds : Decider.sameShard ∈ a.deciders) (t : Trigger) :
    ∃ r p m q, a.reroute s t = .ok r ∧ Passage a s t r p m q :=
  (reroute_cases h hset t).resolve_right fun hno => hno.1 hds

theorem exists_passage (h : s.WellFormed) (hr : a.reroute s t = .ok r) :
    ∃ p m q, Passage a s t r p m q := by
  rcases reroute_cases h (validate_of_reroute hr) t with ⟨r', p, m, q, hr', hpass⟩ | ⟨-, e, he⟩
  · rw [hr] at hr'
    cases hr'
    exact ⟨p, m, q, hpass⟩
  · rw [hr] at he
    cases he

end Allocator

namespace Passage

variable {a : Allocator} {s : ClusterState} {t : Trigger} {r : RerouteResult} {p m q : Pass}
variable {shard : ShardId} {n : NodeId} {c : Copy}

theorem sound_last (h : Passage a s t r p m q) : q.Sound :=
  h.admits.sound (h.completes.sound h.sound)

theorem state_last (h : Passage a s t r p m q) : q.state = s :=
  h.admits.frame.1.trans (h.completes.frame.1.trans h.state)

theorem sound_view (h : Passage a s t r p m q) : q.view.Sound s.metadata :=
  h.state_last ▸ h.sound_last.view

theorem keyed (h : Passage a s t r p m q) {name : String} {i : IndexMetadata}
    (hi : s.metadata.get? name = some i) : i.name = name := by
  rw [← h.state_last] at hi
  exact h.sound_last.keyed hi

/-- The members are the nodes that are live, from the first view to the last. -/
theorem isLive_iff (h : Passage a s t r p m q) :
    p.view.isLive n = true ↔ s.members.contains n = true := by
  rw [View.isLive, h.loaded.live, SortedSet.contains_ofList, decide_eq_true_eq,
    SortedMap.mem_keys_iff]

theorem isLive_last (h : Passage a s t r p m q) : q.view.isLive n = p.view.isLive n :=
  (h.admits.isLive_eq n).trans (h.completes.isLive_eq n)

/-- The next snapshot, whether or not anything changed. -/
theorem state_eq (h : Passage a s t r p m q) :
    r.state.members = s.members ∧ r.state.metadata = s.metadata ∧
      r.state.table = q.view.freeze s.metadata ∧ r.state.history = q.history := by
  have hstate := h.state_last
  rw [h.concluded, Allocator.conclude, hstate]
  split
  next => exact ⟨rfl, rfl, rfl, rfl⟩
  next hsame =>
    obtain ⟨htable, hhistory⟩ := not_or.mp hsame
    exact ⟨rfl, rfl, (not_not.mp htable).symm, (not_not.mp hhistory).symm⟩

theorem transitions_eq (h : Passage a s t r p m q) : r.transitions = q.view.transitions := by
  rw [h.concluded, Allocator.conclude]
  split <;> rfl

theorem get?_table (h : Passage a s t r p m q) (name : String) :
    r.state.table.get? name = (s.metadata.get? name).map q.view.frozen := by
  rw [h.state_eq.2.2.1]
  exact View.get?_freeze (fun hget => h.keyed hget) name

theorem wellFormed (h : Passage a s t r p m q) : r.state.WellFormed := by
  obtain ⟨-, hmetadata, -, hhistory⟩ := h.state_eq
  constructor
  case keyed =>
    intro name i hi
    rw [hmetadata] at hi
    exact h.keyed hi
  case sameIndices =>
    intro name
    rw [SortedMap.contains, SortedMap.contains, hmetadata, h.get?_table, Option.isSome_map]
  case indices =>
    intro name i u hi hu
    rw [hmetadata] at hi
    rw [h.get?_table, hi] at hu
    cases hu
    refine ⟨rfl, ?_, fun e he => ?_⟩
    · show (i.shardIds.map _).map _ = _
      rw [List.map_map]
      exact List.map_id _
    · obtain ⟨shard, hs, rfl⟩ := List.mem_map.mp he
      obtain ⟨hindex, hnumber⟩ := IndexMetadata.mem_shardIds.mp hs
      have hget : s.metadata.get? shard.index = some i := by
        rw [hindex, h.keyed hi]
        exact hi
      have hknown : s.metadata.knows shard = true := by
        simp [Metadata.knows, hget, hnumber]
      have hentry := h.sound_view.wellFormed_slots hknown
      rw [Metadata.capacity, if_pos hknown, hget] at hentry
      exact hentry
  case named =>
    intro shard hshard
    rw [hhistory] at hshard
    rw [hmetadata, ← h.state_last]
    exact h.sound_last.named shard hshard

/-- The entry of a declared shard has the slots of the last view. -/
theorem shard?_table (h : Passage a s t r p m q) (hknown : s.metadata.knows shard = true) :
    r.state.table.shard? shard = some { shard, copies := q.view.slots shard } := by
  cases hm : s.metadata.get? shard.index with
  | none => simp [Metadata.knows, hm] at hknown
  | some i =>
    have hnumber : shard.number < i.shards := by simpa [Metadata.knows, hm] using hknown
    have hid : (⟨i.name, shard.number⟩ : ShardId) = shard := by rw [h.keyed hm]
    rw [RoutingTable.shard?, h.get?_table, hm, Option.map_some, Option.bind_some, View.frozen]
    simp only
    rw [List.getElem?_map, IndexMetadata.shardIds, List.getElem?_map,
      List.getElem?_range hnumber, Option.map_some, Option.map_some, hid]

/-- The copies of the next snapshot are the slots of the last view. -/
theorem mem_copies_iff (h : Passage a s t r p m q) :
    c ∈ r.state.table.copies ↔ c ∈ q.view.slots c.shard := by
  rw [h.wellFormed.mem_copies_iff]
  cases hknown : s.metadata.knows c.shard with
  | true =>
    rw [h.shard?_table hknown]
    simp
  | false =>
    rw [h.wellFormed.shard?_eq_none (by rw [h.state_eq.2.1]; exact hknown)]
    -- a shard that is not declared has no slots either
    refine ⟨fun hex => by simp at hex, fun hc => ?_⟩
    have hq := h.sound_view
    rcases (View.mem_slots_iff hq.consistent.indexed).mp hc with ⟨⟨n, hn⟩, -⟩ | ⟨hwait, -⟩
    · rw [hq.knows_of_copyOn? hn] at hknown
      cases hknown
    · rw [hq.knows_of_mem hwait] at hknown
      cases hknown

theorem mem_entry_iff (h : Passage a s t r p m q) {x : ShardTable}
    (hx : r.state.table.shard? shard = some x) : c ∈ x.copies ↔ c ∈ q.view.slots shard := by
  rw [h.wellFormed.mem_entry_iff hx, h.mem_copies_iff]
  constructor
  · rintro ⟨hc, rfl⟩
    exact hc
  · intro hc
    obtain rfl := h.sound_last.view.shard_of_mem_slots hc
    exact ⟨hc, rfl⟩

/-- The copies of the snapshot that are on a node are there in the first view. -/
theorem copyOn?_of_mem (h : Passage a s t r p m q) (hc : c ∈ s.table.copies)
    (hn : c.node = some n) : p.view.copyOn? c.shard n = some c :=
  (h.loaded.copyOn?_iff _ _ _).mpr ⟨c, hc, rfl, .inl ⟨hn, rfl⟩⟩

/-- A copy on a node of the first view is one of the snapshot, or the target of its move. -/
theorem stored_of_copyOn? (h : Passage a s t r p m q) (hs : s.WellFormed)
    (hc : p.view.copyOn? shard n = some c) : ∃ d ∈ s.table.copies, d.shard = shard ∧
      d.state ≠ .unassigned ∧ c.primary = d.primary ∧ (c = d ∨ c.isRelocationTarget = true) := by
  obtain ⟨d, hd, hshard, hat⟩ := (h.loaded.copyOn?_iff _ _ _).mp hc
  have hshape := hs.loadable.stored d hd
  have hassigned : d.state ≠ .unassigned := by
    intro hstate
    rw [Copy.Stored, hstate] at hshape
    rcases hat with ⟨hn, -⟩ | ⟨hp, -⟩
    · rw [hshape.1] at hn
      cases hn
    · rw [hshape.2.1] at hp
      cases hp
  refine ⟨d, hd, hshard, hassigned, ?_⟩
  rcases hat with ⟨-, rfl⟩ | ⟨-, htarget⟩
  · exact ⟨rfl, .inl rfl⟩
  · obtain ⟨-, rfl⟩ := Copy.relocationTarget?_eq_some_iff.mp htarget
    obtain ⟨k, hk⟩ := hshape.exists_node hassigned
    exact ⟨rfl, .inr (Copy.isRelocationTarget_iff.mpr ⟨rfl, by rw [hk]; rfl⟩)⟩

/-- The nodes of the last view are members. -/
theorem contains_of_copyOn? (h : Passage a s t r p m q) (hc : q.view.copyOn? shard n = some c) :
    r.state.members.contains n = true := by
  rw [h.state_eq.1, ← h.isLive_iff, ← h.isLive_last]
  exact h.allLive.of_copyOn? hc

/-- The primary of the last view is the primary of the next snapshot. -/
theorem exists_primary? (h : Passage a s t r p m q) (hc : q.view.copyOn? shard n = some c)
    (hprim : c.primary = true) (ht : c.isRelocationTarget = false) :
    ∃ x, r.state.table.shard? shard = some x ∧ x.primary? = some c := by
  have hq := h.sound_view
  have hknown := hq.knows_of_copyOn? hc
  have hslot : c ∈ q.view.slots shard :=
    (View.mem_slots_iff hq.consistent.indexed).mpr (.inl ⟨⟨n, hc⟩, ht⟩)
  exact ⟨_, h.shard?_table hknown, (hq.wellFormed_slots hknown).primary?_eq hslot hprim⟩

/-- After a pass every copy is on a member, and so is the target of its move. -/
theorem members_of_mem_nodes (h : Passage a s t r p m q) (hc : c ∈ r.state.table.copies)
    (hn : n ∈ c.nodes) : r.state.members.contains n = true := by
  have hq := h.sound_last.view
  rcases (View.mem_slots_iff hq.consistent.indexed).mp (h.mem_copies_iff.mp hc) with
    ⟨⟨k, hk⟩, -⟩ | ⟨hwait, -⟩
  · -- the other end of a move is a node of the view as well
    rcases Copy.mem_nodes.mp hn with hnode | hpeer
    · rw [(hq.consistent.own hk).2, Option.some_inj] at hnode
      exact h.contains_of_copyOn? (hnode ▸ hk)
    · obtain ⟨d, hd, -⟩ := (hq.consistent.linked _).exists_peer hk hpeer
      exact h.contains_of_copyOn? hd
  · have hstored := hq.stored_of_mem_slots (h.mem_copies_iff.mp hc)
    rw [Copy.Stored, hq.consistent.waiting c hwait] at hstored
    obtain ⟨hnode, hpeer, -⟩ := hstored
    rw [Copy.nodes, hnode, hpeer] at hn
    exact absurd hn List.not_mem_nil

end Passage

end ShardAllocation
