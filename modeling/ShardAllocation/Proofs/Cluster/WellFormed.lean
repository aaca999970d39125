/-
Well-formed snapshots of the cluster.

Metadata and routing table of a well-formed snapshot name the same indices, and every index
has its declared shards in order.  A shard has one primary and no more copies than its
index asks for; every copy carries the name of its shard and has the shape of its state,
and no node occurs twice among the nodes of a shard, the targets of moves included.  The
history names declared shards only.

* `shed_spec`, `withReplicas_cases` — what resizing does to the copies of a shard;
* `mem_withReplicas_of_isActive` — when resizing takes out no data;
* `WellFormed.withMembers`, `withIndex`, `withReplicas`, `withoutIndex` — every change that
  is declared from outside keeps a snapshot well formed.
-/
import Mathlib.Data.List.Flatten
import ShardAllocation.Cluster.State
import ShardAllocation.Proofs.Routing.Loading

namespace ShardAllocation

/-- One primary, at most so many copies, stored shapes and distinct nodes. -/
structure ShardTable.WellFormed (most : Nat) (t : ShardTable) : Prop where
  own : ∀ c ∈ t.copies, c.shard = t.shard
  primary : t.copies.countP (·.primary) = 1
  atMost : t.copies.length ≤ most
  stored : ∀ c ∈ t.copies, c.Stored
  apart : (t.copies.flatMap Copy.nodes).Nodup

/-- The declared shards in their order, each well formed. -/
structure IndexTable.WellFormed (m : IndexMetadata) (t : IndexTable) : Prop where
  index : t.index = m.name
  shards : t.shards.map (·.shard) = m.shardIds
  wellFormed : ∀ e ∈ t.shards, e.WellFormed m.copiesPerShard

/-- Metadata, routing table and history belong together. -/
structure ClusterState.WellFormed (s : ClusterState) : Prop where
  keyed : ∀ {name m}, s.metadata.get? name = some m → m.name = name
  sameIndices : ∀ name, s.table.contains name = s.metadata.contains name
  indices : ∀ {name m t}, s.metadata.get? name = some m → s.table.get? name = some t →
    t.WellFormed m
  named : ∀ shard, s.history.shards.contains shard = true → s.metadata.knows shard = true

/-! ### Shards -/

namespace ShardTable

variable {t : ShardTable} {most wanted : Nat} {since : Instant}

theorem length_eq (t : ShardTable) :
    t.copies.length = t.copies.countP (·.primary) + t.replicas.length := by
  have hreplicas : t.replicas.length = t.copies.countP fun c => decide ¬c.primary = true := by
    rw [replicas, ← List.countP_eq_length_filter]
    exact List.countP_congr fun c _ => by simp
  rw [hreplicas]
  exact List.length_eq_countP_add_countP _

/-- The one primary of a shard is the primary that is found. -/
theorem WellFormed.primary?_eq (h : t.WellFormed most) {c : Copy} (hc : c ∈ t.copies)
    (hprim : c.primary = true) : t.primary? = some c := by
  have hone := h.primary
  rw [List.countP_eq_length_filter, List.length_eq_one_iff] at hone
  obtain ⟨d, hd⟩ := hone
  have hmem : c ∈ t.copies.filter (·.primary) := List.mem_filter.mpr ⟨hc, hprim⟩
  rw [hd, List.mem_singleton] at hmem
  rw [primary?, ← List.head?_filter, hd, hmem]
  rfl

/-- While there is a replica, there is a first state of the order in which there is one. -/
theorem exists_find?_sheddingOrder {copies : List Copy} (h : copies.countP (!·.primary) ≠ 0) :
    ∃ state, sheddingOrder.find? (fun state => copies.any (isReplicaIn state)) = some state := by
  obtain ⟨c, hc, hreplica⟩ := List.countP_pos_iff.mp (Nat.pos_of_ne_zero h)
  have hany : copies.any (isReplicaIn c.state) = true :=
    List.any_eq_true.mpr ⟨c, hc, by simpa [isReplicaIn] using hreplica⟩
  have hmem : c.state ∈ sheddingOrder := by cases c.state <;> decide
  exact Option.isSome_iff_exists.mp (List.find?_isSome.mpr ⟨c.state, hmem, hany⟩)

/-- Shed is the last replica in the first state of the order in which there is one. -/
theorem shedOne_split {copies : List Copy} {state : CopyState}
    (hfind : sheddingOrder.find? (fun state => copies.any (isReplicaIn state)) = some state) :
    ∃ before c after, copies = before ++ c :: after ∧ c.primary = false ∧ c.state = state ∧
      shedOne copies = before ++ after ∧ ∀ d ∈ after, isReplicaIn state d = false := by
  have hsome : copies.any (isReplicaIn state) = true :=
    List.find?_some (p := fun state => copies.any (isReplicaIn state)) hfind
  obtain ⟨d, hd, hstate⟩ := List.any_eq_true.mp hsome
  -- the last copy in that state is the first one of the reversed list
  obtain ⟨c, l₁, l₂, hlast, hc, hsplit, herase⟩ :=
    List.exists_of_eraseP (p := isReplicaIn state) (List.mem_reverse.mpr hd) hstate
  simp only [isReplicaIn, Bool.and_eq_true, Bool.not_eq_true', beq_iff_eq] at hc
  refine ⟨l₂.reverse, c, l₁.reverse, ?_, hc.1, hc.2, ?_, fun d hd => ?_⟩
  · rw [← List.reverse_reverse copies, hsplit]
    simp
  · simp only [shedOne, hfind, removeLast, herase, List.reverse_append]
  · exact Bool.not_eq_true _ ▸ hlast d (List.mem_reverse.mp hd)

/-- Shedding one copy takes out one replica, if there is one. -/
theorem shedOne_spec (copies : List Copy) (h : copies.countP (!·.primary) ≠ 0) :
    ∃ before c after, copies = before ++ c :: after ∧ c.primary = false ∧
      shedOne copies = before ++ after := by
  obtain ⟨state, hfind⟩ := exists_find?_sheddingOrder h
  obtain ⟨before, c, after, hsplit, hreplica, -, hone, -⟩ := shedOne_split hfind
  exact ⟨before, c, after, hsplit, hreplica, hone⟩

/-- While there is a replica without a full set of data, one of these is shed. -/
theorem shedOne_inactive {copies : List Copy}
    (h : copies.countP (fun c => !c.primary && !c.isActive) ≠ 0) :
    ∃ before c after, copies = before ++ c :: after ∧ c.primary = false ∧ c.isActive = false ∧
      shedOne copies = before ++ after := by
  obtain ⟨d, hd, hinactive⟩ := List.countP_pos_iff.mp (Nat.pos_of_ne_zero h)
  simp only [Bool.and_eq_true, Bool.not_eq_true'] at hinactive
  have hany : copies.any (isReplicaIn d.state) = true :=
    List.any_eq_true.mpr ⟨d, hd, by simp [isReplicaIn, hinactive.1]⟩
  -- the states without data come first in the order
  have hfind : ∃ state, (state = .unassigned ∨ state = .initializing) ∧
      sheddingOrder.find? (fun state => copies.any (isReplicaIn state)) = some state := by
    by_cases hfirst : copies.any (isReplicaIn .unassigned) = true
    · exact ⟨_, .inl rfl, List.find?_cons_of_pos
        (p := fun state => copies.any (isReplicaIn state)) hfirst⟩
    · have hstate : d.state = .initializing := by
        cases hs : d.state with
        | unassigned => exact absurd (hs ▸ hany) hfirst
        | initializing => rfl
        | started => simp [Copy.isActive, Copy.isStarted, hs] at hinactive
        | relocating => simp [Copy.isActive, Copy.isRelocating, hs] at hinactive
      rw [hstate] at hany
      have hskip := List.find?_cons_of_neg (l := sheddingOrder.tail)
        (p := fun state => copies.any (isReplicaIn state)) hfirst
      exact ⟨_, .inr rfl, hskip.trans (List.find?_cons_of_pos hany)⟩
  obtain ⟨state, hstate, hfind⟩ := hfind
  obtain ⟨before, c, after, hsplit, hreplica, hc, hone, -⟩ := shedOne_split hfind
  refine ⟨before, c, after, hsplit, hreplica, ?_, hone⟩
  rcases hstate with rfl | rfl <;> simp [Copy.isActive, Copy.isStarted, Copy.isRelocating, hc]

/-- Shedding no more copies than there are replicas without data leaves all the data. -/
theorem mem_shed_of_isActive {copies : List Copy} {n : Nat} {c : Copy}
    (h : n ≤ copies.countP fun c => !c.primary && !c.isActive) (hc : c ∈ copies)
    (hactive : c.isActive = true) : c ∈ shed n copies := by
  induction n generalizing copies with
  | zero => exact hc
  | succ n ih =>
    have hsome : copies.countP (fun c => !c.primary && !c.isActive) ≠ 0 := by omega
    obtain ⟨before, d, after, rfl, hreplica, hinactive, hone⟩ := shedOne_inactive hsome
    have hcount : n ≤ (before ++ after).countP fun c => !c.primary && !c.isActive := by
      simp only [List.countP_append, List.countP_cons, hreplica, hinactive] at h ⊢
      simp only [Bool.not_false, Bool.and_self, if_true] at h
      omega
    have hmem : c ∈ before ++ after := by
      rcases List.mem_append.mp hc with hc | hc
      · exact List.mem_append_left _ hc
      · rcases List.mem_cons.mp hc with rfl | hc
        · rw [hactive] at hinactive
          cases hinactive
        · exact List.mem_append_right _ hc
    rw [shed, hone]
    exact ih hcount hmem

/-- Shedding takes out as many replicas as asked for, as long as there are some. -/
theorem shed_spec (copies : List Copy) {n : Nat} (h : n ≤ copies.countP (!·.primary)) :
    (shed n copies).Sublist copies ∧ (shed n copies).length + n = copies.length ∧
      (shed n copies).countP (·.primary) = copies.countP (·.primary) := by
  induction n generalizing copies with
  | zero => exact ⟨.refl _, rfl, rfl⟩
  | succ n ih =>
    obtain ⟨before, c, after, rfl, hreplica, hone⟩ := shedOne_spec copies (by omega)
    -- one replica less, so there are enough for the rest
    have hcount : n ≤ (before ++ after).countP (!·.primary) := by
      simp only [List.countP_append, List.countP_cons, hreplica, Bool.not_false, if_true] at h ⊢
      omega
    obtain ⟨hsub, hlength, hprimary⟩ := ih _ hcount
    rw [shed, hone]
    refine ⟨hsub.trans (List.Sublist.append_left (List.sublist_cons_self c after) before), ?_, ?_⟩
    · simp only [List.length_append, List.length_cons] at hlength ⊢
      omega
    · rw [hprimary]
      simp [List.countP_append, hreplica]

theorem length_replicas (t : ShardTable) : t.replicas.length = t.copies.countP (!·.primary) := by
  rw [replicas, List.countP_eq_length_filter]

theorem shard_withReplicas (t : ShardTable) : (t.withReplicas wanted since).shard = t.shard := by
  unfold withReplicas
  simp only
  split <;> rfl

/-- Resizing appends waiting replicas, or takes out some replicas. -/
theorem withReplicas_cases (t : ShardTable) (wanted : Nat) (since : Instant) :
    (∃ fresh, (t.withReplicas wanted since).copies = t.copies ++ fresh ∧
      t.replicas.length + fresh.length = wanted ∧
      ∀ c ∈ fresh, c = Copy.newUnassigned t.shard false { reason := .replicaAdded, since }) ∨
    ((t.withReplicas wanted since).copies.Sublist t.copies ∧
      (t.withReplicas wanted since).copies.length + t.replicas.length = t.copies.length + wanted ∧
      (t.withReplicas wanted since).copies.countP (·.primary) = t.copies.countP (·.primary)) := by
  unfold withReplicas
  simp only
  split
  next hfew =>
    refine .inl ⟨_, rfl, ?_, fun c hc => List.eq_of_mem_replicate hc⟩
    rw [List.length_replicate]
    omega
  next hmany =>
    have hcount := t.length_replicas
    obtain ⟨hsub, hshed, hprimary⟩ := shed_spec t.copies
      (n := t.replicas.length - wanted) (by omega)
    refine .inr ⟨hsub, ?_, hprimary⟩
    show (shed (t.replicas.length - wanted) t.copies).length + t.replicas.length = _
    omega

theorem mem_of_mem_withReplicas {c : Copy} (hc : c ∈ (t.withReplicas wanted since).copies) :
    c ∈ t.copies ∨ c = Copy.newUnassigned t.shard false { reason := .replicaAdded, since } := by
  rcases t.withReplicas_cases wanted since with ⟨fresh, heq, -, hfresh⟩ | ⟨hsub, -⟩
  · rw [heq] at hc
    exact (List.mem_append.mp hc).imp_right (hfresh c)
  · exact .inl (hsub.subset hc)

/-- Resizing takes out replicas only. -/
theorem mem_withReplicas_of_primary {c : Copy} (hc : c ∈ t.copies) (hprim : c.primary = true) :
    c ∈ (t.withReplicas wanted since).copies := by
  rcases t.withReplicas_cases wanted since with ⟨fresh, heq, -, -⟩ | ⟨hsub, -, hcount⟩
  · rw [heq]
    exact List.mem_append_left _ hc
  · -- as many primaries in a sublist are the same primaries
    rw [List.countP_eq_length_filter, List.countP_eq_length_filter] at hcount
    have hsame := (hsub.filter (·.primary)).eq_of_length hcount
    have hmem : c ∈ t.copies.filter (·.primary) := List.mem_filter.mpr ⟨hc, hprim⟩
    rw [← hsame] at hmem
    exact (List.mem_filter.mp hmem).1

/-- The replicas with a full set of data. -/
def activeReplicas (t : ShardTable) : Nat := t.copies.countP fun c => !c.primary && c.isActive

/-- Resizing takes out no data as long as there is room for all replicas that have it. -/
theorem mem_withReplicas_of_isActive (h : t.activeReplicas ≤ wanted) {c : Copy}
    (hc : c ∈ t.copies) (hactive : c.isActive = true) :
    c ∈ (t.withReplicas wanted since).copies := by
  have hcount : t.replicas.length =
      t.activeReplicas + t.copies.countP fun c => !c.primary && !c.isActive := by
    have hsplit := List.length_eq_countP_add_countP (·.isActive) (l := t.replicas)
    rw [replicas, List.countP_filter, List.countP_filter, ← replicas] at hsplit
    rw [hsplit, activeReplicas]
    congr 1 <;> refine List.countP_congr fun d _ => ?_ <;>
      cases d.primary <;> cases d.isActive <;> simp
  unfold withReplicas
  simp only
  split
  next => exact List.mem_append_left _ hc
  next => exact mem_shed_of_isActive (by omega) hc hactive

/-- Resizing fills no replica. -/
theorem activeReplicas_withReplicas (t : ShardTable) (wanted : Nat) (since : Instant) :
    (t.withReplicas wanted since).activeReplicas ≤ t.activeReplicas := by
  rcases t.withReplicas_cases wanted since with ⟨fresh, heq, -, hfresh⟩ | ⟨hsub, -⟩
  · have hnone : fresh.countP (fun c => !c.primary && c.isActive) = 0 :=
      List.countP_eq_zero.mpr fun c hc => by
        rw [hfresh c hc]
        simp [Copy.newUnassigned, Copy.isActive, Copy.isStarted, Copy.isRelocating]
    rw [activeReplicas, heq, List.countP_append, hnone]
    exact Nat.le_refl _
  · exact hsub.countP_le

theorem WellFormed.withReplicas (h : t.WellFormed most) (wanted : Nat) (since : Instant) :
    (t.withReplicas wanted since).WellFormed (1 + wanted) := by
  have hlength := t.length_eq
  rw [h.primary] at hlength
  constructor
  case own =>
    intro c hc
    rw [shard_withReplicas]
    rcases mem_of_mem_withReplicas hc with hc | rfl
    · exact h.own c hc
    · rfl
  case primary =>
    rcases t.withReplicas_cases wanted since with ⟨fresh, heq, -, hfresh⟩ | ⟨-, -, hcount⟩
    · rw [heq, List.countP_append, h.primary, List.countP_eq_zero.mpr fun c hc => by
        rw [hfresh c hc]
        simp [Copy.newUnassigned]]
    · exact hcount.trans h.primary
  case atMost =>
    rcases t.withReplicas_cases wanted since with ⟨fresh, heq, hfew, -⟩ | ⟨-, hmany, -⟩
    · rw [heq, List.length_append]
      omega
    · omega
  case stored =>
    intro c hc
    rcases mem_of_mem_withReplicas hc with hc | rfl
    · exact h.stored c hc
    · exact ⟨rfl, rfl, rfl⟩
  case apart =>
    rcases t.withReplicas_cases wanted since with ⟨fresh, heq, -, hfresh⟩ | ⟨hsub, -, -⟩
    · -- a fresh replica is on no node
      have hnone : fresh.flatMap Copy.nodes = [] := List.flatMap_eq_nil_iff.mpr fun c hc => by
        rw [hfresh c hc]
        rfl
      rw [heq, List.flatMap_append, hnone, List.append_nil]
      exact h.apart
    · exact (hsub.flatMap Copy.nodes).nodup h.apart

end ShardTable

/-! ### Indices -/

namespace IndexMetadata

theorem mem_shardIds {m : IndexMetadata} {s : ShardId} :
    s ∈ m.shardIds ↔ s.index = m.name ∧ s.number < m.shards := by
  simp only [shardIds, List.mem_map, List.mem_range]
  constructor
  · rintro ⟨i, hi, rfl⟩
    exact ⟨rfl, hi⟩
  · rintro ⟨hindex, hnumber⟩
    exact ⟨s.number, hnumber, by rw [← hindex]⟩

theorem nodup_shardIds (m : IndexMetadata) : m.shardIds.Nodup :=
  List.nodup_range.map fun _ _ heq => congrArg ShardId.number heq

end IndexMetadata

namespace IndexTable

variable {t : IndexTable} {m : IndexMetadata}

theorem wellFormed_newUnassigned (m : IndexMetadata) (since : Instant) :
    (newUnassigned m since).WellFormed m := by
  refine ⟨rfl, by simp [newUnassigned, Function.comp_def], fun e he => ?_⟩
  obtain ⟨s, -, rfl⟩ := List.mem_map.mp he
  have hfresh : ∀ primary : Bool, (Copy.newUnassigned s primary
      { reason := .indexCreated, since }).Stored := fun _ => ⟨rfl, rfl, rfl⟩
  have hmem : ∀ {c : Copy}, c ∈ Copy.newUnassigned s true { reason := .indexCreated, since } ::
      List.replicate m.replicas (Copy.newUnassigned s false { reason := .indexCreated, since }) →
        ∃ primary, c = Copy.newUnassigned s primary { reason := .indexCreated, since } := by
    intro c hc
    rcases List.mem_cons.mp hc with hc | hc
    · exact ⟨true, hc⟩
    · exact ⟨false, List.eq_of_mem_replicate hc⟩
  constructor
  case own =>
    intro c hc
    obtain ⟨primary, rfl⟩ := hmem hc
    rfl
  case primary => simp [Copy.newUnassigned]
  case atMost =>
    rw [List.length_cons, List.length_replicate, IndexMetadata.copiesPerShard]
    omega
  case stored =>
    intro c hc
    obtain ⟨primary, rfl⟩ := hmem hc
    exact hfresh primary
  case apart =>
    rw [List.flatMap_eq_nil_iff.mpr fun c hc => by
      obtain ⟨primary, rfl⟩ := hmem hc
      rfl]
    exact List.nodup_nil

theorem WellFormed.withReplicas (h : t.WellFormed m) (replicas : Nat) (since : Instant) :
    IndexTable.WellFormed { m with replicas }
      { index := m.name, shards := t.shards.map (·.withReplicas replicas since) } := by
  refine ⟨rfl, ?_, fun e he => ?_⟩
  · rw [List.map_map]
    exact (List.map_congr_left fun e _ => e.shard_withReplicas).trans h.shards
  · obtain ⟨old, hold, rfl⟩ := List.mem_map.mp he
    exact (h.wellFormed old hold).withReplicas replicas since

theorem WellFormed.length_shards (h : t.WellFormed m) : t.shards.length = m.shards := by
  rw [← List.length_map (·.shard), h.shards, IndexMetadata.shardIds, List.length_map,
    List.length_range]

/-- The entry of a declared shard stands at the place that its number says. -/
theorem WellFormed.getElem? (h : t.WellFormed m) {s : ShardId} (hs : s ∈ m.shardIds) :
    ∃ e, t.shards[s.number]? = some e ∧ e.shard = s ∧ e ∈ t.shards := by
  obtain ⟨hindex, hnumber⟩ := IndexMetadata.mem_shardIds.mp hs
  have hget : (t.shards.map (·.shard))[s.number]? = some s := by
    rw [h.shards, IndexMetadata.shardIds, List.getElem?_map, List.getElem?_range hnumber,
      Option.map_some, ← hindex]
  rw [List.getElem?_map] at hget
  obtain ⟨e, he, hshard⟩ := Option.map_eq_some_iff.mp hget
  exact ⟨e, he, hshard, List.mem_of_getElem? he⟩

end IndexTable

/-! ### Snapshots -/

namespace ClusterState

variable {s t : ClusterState}

theorem wellFormed_initial : initial.WellFormed where
  keyed := fun h => by cases h
  sameIndices := fun _ => rfl
  indices := fun h => by cases h
  named := fun _ h => by cases h

theorem WellFormed.withMembers (h : s.WellFormed) (members : Membership) :
    (s.withMembers members).WellFormed := ⟨h.keyed, h.sameIndices, h.indices, h.named⟩

/-- What the declaration of an index makes of a snapshot. -/
theorem withIndex_ok {m : IndexMetadata} {since : Instant} (ht : s.withIndex m since = .ok t) :
    s.table.contains m.name = false ∧ t = { s with
      version := s.version + 1
      metadata := s.metadata.insert m.name m
      table := s.table.insert m.name (IndexTable.newUnassigned m since) } := by
  unfold withIndex at ht
  split at ht
  next => cases ht
  next =>
    obtain ⟨table, htable, ht⟩ := bind_eq_ok_iff.mp ht
    unfold RoutingTable.addIndex at htable
    split at htable
    next => cases htable
    next hnew =>
      cases htable
      cases ht
      exact ⟨Bool.not_eq_true _ ▸ hnew, rfl⟩

/-- What another number of replicas makes of a snapshot. -/
theorem withReplicas_ok {index : String} {replicas : Nat} {since : Instant}
    (ht : s.withReplicas index replicas since = .ok t) :
    ∃ old m, s.table.get? index = some old ∧ s.metadata.get? index = some m ∧ t = { s with
      version := s.version + 1
      metadata := s.metadata.modify index fun m => { m with replicas }
      table := s.table.insert index
        { index, shards := old.shards.map (·.withReplicas replicas since) } } := by
  obtain ⟨table, htable, ht⟩ := bind_eq_ok_iff.mp ht
  split at ht
  next hcontains =>
    unfold RoutingTable.setReplicas at htable
    split at htable
    next => cases htable
    next old hold =>
      cases htable
      cases ht
      obtain ⟨m, hm⟩ := Option.isSome_iff_exists.mp hcontains
      exact ⟨old, m, hold, hm, rfl⟩
  next => cases ht

/-- What the removal of an index makes of a snapshot. -/
theorem withoutIndex_ok {index : String} (ht : s.withoutIndex index = .ok t) : t = { s with
    version := s.version + 1
    metadata := s.metadata.erase index
    table := s.table.erase index
    history := s.history.withoutIndex index } := by
  obtain ⟨table, htable, ht⟩ := bind_eq_ok_iff.mp ht
  unfold RoutingTable.removeIndex at htable
  split at htable
  next =>
    cases htable
    cases ht
    rfl
  next => cases htable

theorem WellFormed.withIndex (h : s.WellFormed) {m : IndexMetadata} {since : Instant}
    (ht : s.withIndex m since = .ok t) : t.WellFormed := by
  obtain ⟨hnew, rfl⟩ := withIndex_ok ht
  constructor
  case keyed =>
    intro name i hi
    rw [SortedMap.get?_insert] at hi
    split at hi
    next heq =>
      cases hi
      exact heq.symm
    next => exact h.keyed hi
  case sameIndices =>
    intro name
    rw [SortedMap.contains_insert, SortedMap.contains_insert, h.sameIndices]
  case indices =>
    intro name i u hi hu
    rw [SortedMap.get?_insert] at hi hu
    split at hi
    next heq =>
      rw [if_pos heq] at hu
      cases hi
      cases hu
      exact IndexTable.wellFormed_newUnassigned _ since
    next hne =>
      rw [if_neg hne] at hu
      exact h.indices hi hu
  case named =>
    intro shard hshard
    have hknown := h.named shard hshard
    -- the history cannot name a shard of an index that was not declared before
    have hne : shard.index ≠ m.name := by
      intro heq
      rw [h.sameIndices, SortedMap.contains, ← heq] at hnew
      cases hget : s.metadata.get? shard.index with
      | none => simp [Metadata.knows, hget] at hknown
      | some i => simp [hget] at hnew
    simpa [Metadata.knows, SortedMap.get?_insert_of_ne _ hne] using hknown

theorem WellFormed.withReplicas (h : s.WellFormed) {index : String} {replicas : Nat}
    {since : Instant} (ht : s.withReplicas index replicas since = .ok t) : t.WellFormed := by
  obtain ⟨old, m, hold, hm, rfl⟩ := withReplicas_ok ht
  have hmeta : ∀ name, (s.metadata.modify index fun m => { m with replicas }).get? name =
      if name = index then (s.metadata.get? name).map fun m => { m with replicas }
      else s.metadata.get? name := fun name => SortedMap.get?_modify ..
  constructor
  case keyed =>
    intro name i hi
    rw [hmeta] at hi
    split at hi
    next =>
      obtain ⟨j, hj, rfl⟩ := Option.map_eq_some_iff.mp hi
      exact h.keyed (m := j) hj
    next => exact h.keyed hi
  case sameIndices =>
    intro name
    have hsame := h.sameIndices name
    rw [SortedMap.contains_insert, hsame]
    simp only [SortedMap.contains, hmeta]
    by_cases heq : name = index
    · simp [heq, hm]
    · simp [heq]
  case indices =>
    intro name i u hi hu
    rw [hmeta] at hi
    rw [SortedMap.get?_insert] at hu
    split at hi
    next heq =>
      rw [if_pos heq] at hu
      obtain ⟨j, hj, rfl⟩ := Option.map_eq_some_iff.mp hi
      cases hu
      obtain rfl := heq
      obtain rfl := h.keyed hj
      exact (h.indices hj hold).withReplicas replicas since
    next hne =>
      rw [if_neg hne] at hu
      exact h.indices hi hu
  case named =>
    intro shard hshard
    have hknown := h.named shard hshard
    simp only [Metadata.knows, hmeta] at hknown ⊢
    split
    next => cases hget : s.metadata.get? shard.index <;> simp_all
    next => exact hknown

theorem WellFormed.withoutIndex (h : s.WellFormed) {index : String}
    (ht : s.withoutIndex index = .ok t) : t.WellFormed := by
  obtain rfl := withoutIndex_ok ht
  constructor
  case keyed =>
    intro name m hm
    rw [SortedMap.get?_erase] at hm
    split at hm
    next => cases hm
    next => exact h.keyed hm
  case sameIndices =>
    intro name
    rw [SortedMap.contains_erase, SortedMap.contains_erase, h.sameIndices]
  case indices =>
    intro name m u hm hu
    rw [SortedMap.get?_erase] at hm hu
    split at hm
    next => cases hm
    next hne =>
      rw [if_neg hne] at hu
      exact h.indices hm hu
  case named =>
    intro shard hshard
    simp only [History.withoutIndex, SortedMap.contains, SortedMap.get?_filter] at hshard
    obtain ⟨attempts, hget⟩ := Option.isSome_iff_exists.mp hshard
    obtain ⟨hget, hne⟩ := Option.filter_eq_some_iff.mp hget
    have hne : shard.index ≠ index := by simpa using hne
    have hknown := h.named shard (by rw [SortedMap.contains, hget]; rfl)
    simpa [Metadata.knows, SortedMap.get?_erase_of_ne _ hne] using hknown

end ClusterState

end ShardAllocation
