/-
The counts and the colour of a cluster.

The health is added up shard by shard, and a move in flight is counted three times: as the
active copy that moves, as a relocating one and, with its target, as an initializing one.
Otherwise each count is the number of such copies in the table, and without the targets of moves
the counts add up to the copies that the metadata asks for.  The colour, which is a maximum over the
shards, can be read off the counts.

* `WellFormed.copies_perm` — the copies of the table, read index by index of the metadata;
* `length_eq_of_states`, `WellFormed.shardStatus_eq_green_iff` — what one shard adds;
* `Accounts.addShard`, `addShards`, `addIndices` — the counts account for every shard added so
  far;
* `reachable_health` — the health of a reachable snapshot accounts for every wanted copy.
-/
import Mathlib.Algebra.BigOperators.Group.List.Basic
import Mathlib.Algebra.GroupWithZero.Nat
import ShardAllocation.Cluster.Health
import ShardAllocation.Proofs.Cluster.RecoverySource

namespace ShardAllocation

namespace HealthStatus

variable (s t : HealthStatus)

theorem worse_eq_green_iff : s.worse t = green ↔ s = green ∧ t = green := by
  cases s <;> cases t <;> decide

theorem worse_eq_red_iff : s.worse t = red ↔ s = red ∨ t = red := by
  cases s <;> cases t <;> decide

end HealthStatus

/-! ### The copies of the table -/

/-- The values of a map in the order of its keys. -/
theorem SortedMap.values_eq {β : Type} (m : SortedMap String β) :
    m.values = m.keys.filterMap m.get? := by
  rw [values, keys, List.filterMap_map, ← List.filterMap_eq_map]
  exact List.filterMap_congr fun e he => (SortedMap.mem_entries_iff.mp he).symm

namespace ClusterState

variable {s : ClusterState}

/-- The table has an entry for each declared index and no other one. -/
theorem WellFormed.copies_perm (h : s.WellFormed) : s.table.copies.Perm
    (s.metadata.values.flatMap fun m => ((s.table.get? m.name).map (·.copies)).getD []) := by
  have hkeys : s.table.keys.Perm s.metadata.keys :=
    (List.perm_ext_iff_of_nodup s.table.nodup_keys s.metadata.nodup_keys).mpr fun name => by
      rw [SortedMap.mem_keys_iff, SortedMap.mem_keys_iff, h.sameIndices]
  have hnames : s.metadata.keys = s.metadata.values.map (·.name) := by
    rw [SortedMap.keys, SortedMap.values, List.map_map]
    exact List.map_congr_left fun e he => (h.keyed (SortedMap.mem_entries_iff.mp he)).symm
  have hentries := hkeys.filterMap s.table.get?
  rw [hnames, List.filterMap_map, ← SortedMap.values_eq] at hentries
  refine (hentries.flatMap_right _).trans (.of_eq ?_)
  rw [List.filterMap_eq_flatMap_toList, List.flatMap_assoc]
  exact List.flatMap_congr fun m _ => by cases hm : s.table.get? m.name <;> simp [hm]

end ClusterState

/-! ### One shard -/

namespace ShardTable

variable {x : ShardTable} {wanted : Nat}

/-- Every copy is active, being filled or waiting. -/
theorem length_eq_of_states (x : ShardTable) : x.copies.length =
    x.activeCount + x.copies.countP (·.isInitializing) + x.copies.countP (·.isUnassigned) := by
  rw [activeCount]
  induction x.copies with
  | nil => rfl
  | cons c copies ih =>
    simp only [List.length_cons, List.countP_cons, ih]
    cases hstate : c.state <;> simp only [Copy.isActive, Copy.isStarted, Copy.isRelocating,
      Copy.isInitializing, Copy.isUnassigned, hstate] <;> simp <;> omega

/-- A shard of which all wanted copies are active has an active primary. -/
theorem WellFormed.hasActivePrimary (h : x.WellFormed wanted) (hfull : wanted ≤ x.activeCount) :
    ClusterHealth.hasActivePrimary x = true := by
  have hone := h.primary
  obtain ⟨c, hc, hprim⟩ := List.countP_pos_iff.mp (by omega : 0 < x.copies.countP (·.primary))
  -- as many active copies as there are copies at all
  have hall : x.activeCount = x.copies.length :=
    Nat.le_antisymm List.countP_le_length (Nat.le_trans h.atMost hfull)
  rw [ClusterHealth.hasActivePrimary, h.primary?_eq hc hprim]
  exact List.countP_eq_length.mp hall c hc

/-- The one primary of a shard decides whether an active primary is counted. -/
theorem WellFormed.hasActivePrimary_toNat (h : x.WellFormed wanted) :
    (ClusterHealth.hasActivePrimary x).toNat =
      x.copies.countP fun c => c.isActive && c.primary := by
  have hone := h.primary
  rw [List.countP_eq_length_filter] at hone
  obtain ⟨c, hc⟩ := List.length_eq_one_iff.mp hone
  obtain ⟨hmem, hprim⟩ := List.mem_filter.mp (hc ▸ List.mem_singleton_self c)
  rw [ClusterHealth.hasActivePrimary, h.primary?_eq hmem hprim, ← List.countP_filter, hc,
    List.countP_singleton]
  cases hactive : c.isActive <;> simp [hactive]

theorem WellFormed.shardStatus_eq_green_iff (h : x.WellFormed wanted) :
    ClusterHealth.shardStatus wanted x = .green ↔
      x.copies.countP (·.isInitializing) = 0 ∧ x.copies.countP (·.isUnassigned) = 0 ∧
        wanted ≤ x.copies.length := by
  have hlength := x.length_eq_of_states
  have hmost := h.atMost
  have hfull : ClusterHealth.shardStatus wanted x = .green ↔ wanted ≤ x.activeCount := by
    by_cases hless : x.activeCount < wanted
    · cases hprimary : ClusterHealth.hasActivePrimary x <;>
        simp [ClusterHealth.shardStatus, hprimary, hless]
    · have hprimary := h.hasActivePrimary (Nat.le_of_not_lt hless)
      simp [ClusterHealth.shardStatus, hprimary]
  rw [hfull]
  omega

theorem shardStatus_eq_red_iff (wanted : Nat) (x : ShardTable) :
    ClusterHealth.shardStatus wanted x = .red ↔ ClusterHealth.hasActivePrimary x = false := by
  cases hprimary : ClusterHealth.hasActivePrimary x
  · simp [ClusterHealth.shardStatus, hprimary]
  · by_cases hless : x.activeCount < wanted <;>
      simp [ClusterHealth.shardStatus, hprimary, hless]

end ShardTable

/-! ### Adding up -/

/-- The counts are those of the copies of so many shards, which want so many copies altogether.
The colour is what the counts say. -/
structure ClusterHealth.Accounts (wanted shards : Nat) (copies : List Copy) (h : ClusterHealth) :
    Prop where
  active : h.active = copies.countP (·.isActive)
  relocating : h.relocating = copies.countP (·.isRelocating)
  /-- The target of a move is not stored, so it is counted with its source. -/
  initializing : h.initializing =
    copies.countP (·.isInitializing) + copies.countP (·.isRelocating)
  unassigned : h.unassigned = copies.countP (·.isUnassigned)
  missing : copies.length + h.missing = wanted
  activePrimaries : h.activePrimaries = copies.countP fun c => c.isActive && c.primary
  total : h.active + (h.initializing - h.relocating) + h.unassigned + h.missing = wanted
  green : h.status = .green ↔ h.unassigned = 0 ∧ h.missing = 0 ∧ h.initializing = h.relocating
  moves : h.relocating ≤ h.initializing
  primaries : h.activePrimaries ≤ shards
  red : h.status = .red ↔ h.activePrimaries < shards

namespace ClusterHealth.Accounts

variable {h : ClusterHealth} {wanted shards each : Nat} {copies other : List Copy}

/-- The order of the copies does not matter. -/
theorem of_perm (hacc : h.Accounts wanted shards copies) (hperm : other.Perm copies) :
    h.Accounts wanted shards other where
  active := hacc.active.trans (hperm.countP_eq _).symm
  relocating := hacc.relocating.trans (hperm.countP_eq _).symm
  initializing := by rw [hacc.initializing, hperm.countP_eq, hperm.countP_eq]
  unassigned := hacc.unassigned.trans (hperm.countP_eq _).symm
  missing := by rw [hperm.length_eq, hacc.missing]
  activePrimaries := hacc.activePrimaries.trans (hperm.countP_eq _).symm
  total := hacc.total
  green := hacc.green
  moves := hacc.moves
  primaries := hacc.primaries
  red := hacc.red

theorem addShard (hacc : h.Accounts wanted shards copies) {x : ShardTable}
    (hx : x.WellFormed each) :
    (h.addShard each x).Accounts (wanted + each) (shards + 1) (copies ++ x.copies) := by
  have hlength := x.length_eq_of_states
  have hmost := hx.atMost
  obtain ⟨hactive, hrelocating, hinitializing, hunassigned, hmissing, hactivePrimaries, htotal,
    hgreen, hmoves, hprimaries, hred⟩ := hacc
  constructor
  case active => rw [List.countP_append, ← hactive]; rfl
  case relocating => rw [List.countP_append, ← hrelocating]; rfl
  case initializing =>
    simp only [ClusterHealth.addShard, List.countP_append]
    omega
  case unassigned => rw [List.countP_append, ← hunassigned]; rfl
  case missing =>
    simp only [ClusterHealth.addShard, List.length_append]
    omega
  case activePrimaries =>
    rw [List.countP_append, ← hactivePrimaries, ← hx.hasActivePrimary_toNat]
    rfl
  case total =>
    simp only [ClusterHealth.addShard]
    omega
  case green =>
    simp only [ClusterHealth.addShard]
    rw [HealthStatus.worse_eq_green_iff, hgreen, hx.shardStatus_eq_green_iff]
    omega
  case moves =>
    simp only [ClusterHealth.addShard]
    omega
  case primaries =>
    have hone := Bool.toNat_le (hasActivePrimary x)
    simp only [ClusterHealth.addShard]
    omega
  case red =>
    simp only [ClusterHealth.addShard]
    rw [HealthStatus.worse_eq_red_iff, hred, ShardTable.shardStatus_eq_red_iff]
    cases hasActivePrimary x
    · simp
      omega
    · simp

theorem addShards (hacc : h.Accounts wanted shards copies) {l : List ShardTable}
    (hl : ∀ x ∈ l, x.WellFormed each) :
    (l.foldl (ClusterHealth.addShard each) h).Accounts (wanted + l.length * each)
      (shards + l.length) (copies ++ l.flatMap (·.copies)) := by
  induction l generalizing h wanted shards copies with
  | nil => simpa using hacc
  | cons x l ih =>
    have hrest := ih (hacc.addShard (hl x List.mem_cons_self)) fun y hy =>
      hl y (List.mem_cons_of_mem x hy)
    rw [List.foldl_cons, List.length_cons, List.flatMap_cons, ← List.append_assoc]
    rw [Nat.add_assoc, Nat.add_comm each, ← Nat.succ_mul, Nat.add_assoc, Nat.add_comm 1] at hrest
    exact hrest

/-- What every index adds, all of them add. -/
theorem addIndices (hacc : h.Accounts wanted shards copies) {indices : List IndexMetadata}
    {add : ClusterHealth → IndexMetadata → ClusterHealth} {held : IndexMetadata → List Copy}
    (hadd : ∀ m ∈ indices, ∀ {acc : ClusterHealth} {wanted shards : Nat} {copies : List Copy},
      acc.Accounts wanted shards copies → (add acc m).Accounts
        (wanted + m.shards * (1 + m.replicas)) (shards + m.shards) (copies ++ held m)) :
    (indices.foldl add h).Accounts
      (wanted + (indices.map fun m => m.shards * (1 + m.replicas)).sum)
      (shards + (indices.map (·.shards)).sum) (copies ++ indices.flatMap held) := by
  induction indices generalizing h wanted shards copies with
  | nil => simpa using hacc
  | cons m indices ih =>
    have hrest := ih (hadd m List.mem_cons_self hacc) fun i hi =>
      hadd i (List.mem_cons_of_mem m hi)
    rw [Nat.add_assoc, Nat.add_assoc, List.append_assoc] at hrest
    exact hrest

end ClusterHealth.Accounts

/-- The health of a well-formed snapshot accounts for every declared index. -/
theorem ClusterState.WellFormed.accounts {s : ClusterState} (h : s.WellFormed) :
    (ClusterHealth.ofState s).Accounts
      (s.metadata.values.map fun m => m.shards * (1 + m.replicas)).sum
      (s.metadata.values.map (·.shards)).sum s.table.copies := by
  refine ClusterHealth.Accounts.of_perm ?_ h.copies_perm
  unfold ClusterHealth.ofState
  extract_lets start
  have hstart : start.Accounts 0 0 [] := by constructor <;> simp [start]
  rw [← Nat.zero_add (s.metadata.values.map fun m => m.shards * (1 + m.replicas)).sum,
    ← Nat.zero_add (s.metadata.values.map (·.shards)).sum]
  refine hstart.addIndices fun m hm acc wanted shards copies hacc => ?_
  -- the declared index has its entry in the table
  obtain ⟨name, hm⟩ := SortedMap.mem_values_iff.mp hm
  obtain rfl := h.keyed hm
  have hcontains : s.table.contains m.name = true := by
    rw [h.sameIndices, SortedMap.contains, hm]
    rfl
  obtain ⟨t, ht⟩ := Option.isSome_iff_exists.mp hcontains
  have hwf := h.indices hm ht
  simp only [ht, IndexMetadata.copiesPerShard]
  rw [← hwf.length_shards]
  exact hacc.addShards hwf.wellFormed

/-- The health of a reachable snapshot accounts for every copy that the metadata asks for, and its
counts are those of the table.  It is green exactly if nothing waits, is missing or is being filled
but the targets of moves, and red exactly if some shard has no active primary. -/
theorem reachable_health {s : ClusterState} (h : Reachable s) :
    (ClusterHealth.ofState s).Accounts
      (s.metadata.values.map fun m => m.shards * (1 + m.replicas)).sum
      (s.metadata.values.map (·.shards)).sum s.table.copies :=
  h.wellFormed.accounts

/-- A primary moves while its replica is being filled: one active copy, one copy that is filled
besides the target of the move. -/
theorem reachable_health_moving :
    (ClusterHealth.ofState movingCluster).Accounts
      (movingCluster.metadata.values.map fun m => m.shards * (1 + m.replicas)).sum
      (movingCluster.metadata.values.map (·.shards)).sum movingCluster.table.copies ∧
    (ClusterHealth.ofState movingCluster).active = 1 ∧
    (ClusterHealth.ofState movingCluster).relocating = 1 ∧
    (ClusterHealth.ofState movingCluster).initializing = 2 ∧
    (ClusterHealth.ofState movingCluster).unassigned = 0 ∧
    (ClusterHealth.ofState movingCluster).missing = 0 :=
  ⟨reachable_health standardReachable_movingCluster.reachable, by decide +kernel⟩

end ShardAllocation
