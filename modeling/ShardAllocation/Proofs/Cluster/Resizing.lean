/-
Another number of replicas for an index.

Missing replicas are appended as waiting ones.  Of surplus replicas the least valuable are taken
out, among those of one state the last ones.  Which copies go is said by their places in the
list, since waiting replicas of a shard may be equal.

* `shedOne_places`, `shed_eq_without` — one copy after the other goes, each before every replica
  that is kept;
* `WellFormed.resized` — what resizing does to one shard;
* `withReplicas_of_length` — a shard with the wanted number of replicas stays as it is;
* `reachable_withReplicas` — what resizing does to a cluster.
-/
import ShardAllocation.Proofs.Cluster.RecoverySource

namespace ShardAllocation

/-- How valuable a replica in a state is. -/
def CopyState.worth : CopyState → Nat
  | unassigned => 0
  | initializing => 1
  | relocating => 2
  | started => 3

namespace ShardTable

/-- Of two copies, each with its place, the first is shed before the second: it is less
valuable, or in the same state and further back. -/
def GoesBefore (e f : Copy × Nat) : Prop :=
  e.1.state.worth < f.1.state.worth ∨ e.1.state = f.1.state ∧ f.2 < e.2

/-- The copies without those at some places. -/
def without (gone : List Nat) (copies : List Copy) : List Copy :=
  (copies.zipIdx.filter fun e => e.2 ∉ gone).map (·.1)

/-- The second entry is the first one with the wanted number of replicas. -/
structure Resized (wanted : Nat) (since : Instant) (x y : ShardTable) : Prop where
  shard : y.shard = x.shard
  primary : ∃ c, x.copies.filter (·.primary) = [c] ∧ y.copies.filter (·.primary) = [c]
  replicas : y.replicas.length = wanted
  grown : x.replicas.length ≤ wanted → ∃ fresh, y.copies = x.copies ++ fresh ∧
    ∀ c ∈ fresh, c = Copy.newUnassigned x.shard false { reason := .replicaAdded, since }
  shrunk : wanted ≤ x.replicas.length → ∃ gone, y.copies = without gone x.copies ∧
    ∀ e ∈ x.copies.zipIdx, e.2 ∈ gone → e.1.primary = false ∧
      ∀ f ∈ x.copies.zipIdx, f.1.primary = false → f.2 ∉ gone → GoesBefore e f

variable {x : ShardTable} {most wanted : Nat} {since : Instant}

/-! ### Shedding -/

/-- The order of shedding is that of worth. -/
theorem pairwise_sheddingOrder : sheddingOrder.Pairwise fun s t => s.worth < t.worth := by
  decide

/-- No replica is in a state before the first one of the order in which there is one. -/
theorem worth_lt_of_find? {copies : List Copy} {state : CopyState}
    (hfind : sheddingOrder.find? (fun state => copies.any (isReplicaIn state)) = some state)
    {d : Copy} (hd : d ∈ copies) (hreplica : d.primary = false) (hne : d.state ≠ state) :
    state.worth < d.state.worth := by
  obtain ⟨-, before, after, horder, hbefore⟩ := List.find?_eq_some_iff_append.mp hfind
  have hmem : d.state ∈ before ++ state :: after := by
    rw [← horder]
    cases d.state <;> decide
  rcases List.mem_append.mp hmem with hmem | hmem
  · have hany : copies.any (isReplicaIn d.state) = true :=
      List.any_eq_true.mpr ⟨d, hd, by simp [isReplicaIn, hreplica]⟩
    have hnone := hbefore _ hmem
    rw [hany] at hnone
    cases hnone
  · have hpairwise := pairwise_sheddingOrder
    rw [horder] at hpairwise
    have hcons := (List.pairwise_append.mp hpairwise).2.1
    exact (List.pairwise_cons.mp hcons).1 _ ((List.mem_cons.mp hmem).resolve_left hne)

/-- The copy that is shed first is a replica and goes before every replica that it leaves. -/
theorem shedOne_places {l : List (Copy × Nat)} (hl : l.Pairwise fun e f => e.2 < f.2)
    (h : (l.map (·.1)).countP (!·.primary) ≠ 0) :
    ∃ before e after, l = before ++ e :: after ∧ e.1.primary = false ∧
      shedOne (l.map (·.1)) = (before ++ after).map (·.1) ∧
      ∀ f ∈ before ++ after, f.1.primary = false → GoesBefore e f := by
  obtain ⟨state, hfind⟩ := exists_find?_sheddingOrder h
  obtain ⟨before, c, after, hsplit, hreplica, hstate, hone, hlast⟩ := shedOne_split hfind
  obtain ⟨before, rest, rfl, rfl, hrest⟩ := List.map_eq_append_iff.mp hsplit
  obtain ⟨e, after, rfl, rfl, rfl⟩ := List.map_eq_cons_iff.mp hrest
  refine ⟨before, e, after, rfl, hreplica, hone.trans List.map_append.symm,
    fun f hf hfreplica => ?_⟩
  by_cases hsame : f.1.state = e.1.state
  · -- a replica in the same state stands further ahead
    refine .inr ⟨hsame.symm, ?_⟩
    rcases List.mem_append.mp hf with hf | hf
    · exact (List.pairwise_append.mp hl).2.2 f hf e List.mem_cons_self
    · have hnone := hlast f.1 (List.mem_map_of_mem hf)
      simp [isReplicaIn, hfreplica, hsame, ← hstate] at hnone
  · have hmem : f ∈ before ++ e :: after := List.perm_middle.mem_iff.mpr (List.mem_cons_of_mem e hf)
    rw [hstate] at hsame
    refine .inl ?_
    rw [hstate]
    exact worth_lt_of_find? hfind (List.mem_map_of_mem (f := (·.1)) hmem) hfreplica hsame

/-- Taking one more place out takes out the copy at this place. -/
theorem filter_gone_cons {before after : List (Copy × Nat)} {e : Copy × Nat} {gone : List Nat}
    (hne : ∀ f ∈ before ++ after, f.2 ≠ e.2) :
    (before ++ e :: after).filter (fun f => f.2 ∉ e.2 :: gone) =
      (before ++ after).filter fun f => f.2 ∉ gone := by
  have hsame : (before ++ after).filter (fun f => f.2 ∉ e.2 :: gone) =
      (before ++ after).filter fun f => f.2 ∉ gone :=
    List.filter_congr fun f hf => by simp [hne f hf]
  rw [← hsame, List.filter_append, List.filter_append, List.filter_cons_of_neg (by simp)]

/-- Shedding takes the copies at some places out, which hold replicas, and each of these goes
before every replica that is kept. -/
theorem shed_eq_without {l : List (Copy × Nat)} (hl : l.Pairwise fun e f => e.2 < f.2) {n : Nat}
    (h : n ≤ (l.map (·.1)).countP (!·.primary)) :
    ∃ gone : List Nat, shed n (l.map (·.1)) = (l.filter fun e => e.2 ∉ gone).map (·.1) ∧
      ∀ e ∈ l, e.2 ∈ gone → e.1.primary = false ∧
        ∀ f ∈ l, f.1.primary = false → f.2 ∉ gone → GoesBefore e f := by
  induction n generalizing l with
  | zero => exact ⟨[], by simp [shed], fun e _ hgone => absurd hgone List.not_mem_nil⟩
  | succ n ih =>
    obtain ⟨before, e, after, rfl, hreplica, hone, hfirst⟩ := shedOne_places hl (by omega)
    -- what is left has its places in order too, and `e` was alone at its place
    have hrest := hl.sublist ((List.sublist_cons_self e after).append_left before)
    have hapart : (before ++ e :: after).Pairwise fun e f => f.2 ≠ e.2 := hl.imp Nat.ne_of_gt
    have hne : ∀ f ∈ before ++ after, f.2 ≠ e.2 := fun f hf =>
      List.rel_of_pairwise_cons ((List.pairwise_middle Ne.symm).mp hapart) hf
    have hcount : n ≤ ((before ++ after).map (·.1)).countP (!·.primary) := by
      simp only [List.map_append, List.map_cons, List.countP_append, List.countP_cons, hreplica,
        Bool.not_false, if_true] at h ⊢
      omega
    obtain ⟨gone, hshed, hgone⟩ := ih hrest hcount
    have hmem : ∀ f ∈ before ++ e :: after, f = e ∨ f ∈ before ++ after := fun f hf =>
      List.mem_cons.mp (List.perm_middle.mem_iff.mp hf)
    -- a replica that is kept was left by the first step and is kept by the others
    have hkept : ∀ g ∈ before ++ e :: after, g.2 ∉ e.2 :: gone →
        g ∈ before ++ after ∧ g.2 ∉ gone := fun g hg hout =>
      ⟨(hmem g hg).resolve_left fun heq => hout (heq ▸ List.mem_cons_self),
        fun hin => hout (List.mem_cons_of_mem _ hin)⟩
    refine ⟨e.2 :: gone, ?_, fun f hf hfgone => ?_⟩
    · rw [shed, hone, hshed, filter_gone_cons hne]
    · rcases hmem f hf with rfl | hf
      · exact ⟨hreplica, fun g hg hgreplica hout => hfirst g (hkept g hg hout).1 hgreplica⟩
      · obtain ⟨hfreplica, hbest⟩ :=
          hgone f hf ((List.mem_cons.mp hfgone).resolve_left (hne f hf))
        refine ⟨hfreplica, fun g hg hgreplica hout => ?_⟩
        obtain ⟨hg, hout⟩ := hkept g hg hout
        exact hbest g hg hgreplica hout

/-! ### One shard -/

/-- A shard with the wanted number of replicas stays as it is. -/
theorem withReplicas_of_length (h : x.replicas.length = wanted) :
    x.withReplicas wanted since = x := by
  simp only [withReplicas, h, Nat.lt_irrefl, if_false, Nat.sub_self, shed]

theorem WellFormed.length_withReplicas (h : x.WellFormed most) (wanted : Nat) (since : Instant) :
    (x.withReplicas wanted since).replicas.length = wanted := by
  have hlength := x.length_eq
  have hafter := (x.withReplicas wanted since).length_eq
  rw [h.primary] at hlength
  rw [(h.withReplicas wanted since).primary] at hafter
  rcases x.withReplicas_cases wanted since with ⟨fresh, heq, hfew, -⟩ | ⟨-, hmany, -⟩
  · rw [heq, List.length_append] at hafter
    omega
  · omega

/-- What another number of replicas does to the entry of a shard. -/
theorem WellFormed.resized (h : x.WellFormed most) (wanted : Nat) (since : Instant) :
    x.Resized wanted since (x.withReplicas wanted since) := by
  have hreplicas := x.length_replicas
  constructor
  case shard => exact x.shard_withReplicas
  case primary =>
    have hbefore := h.primary
    have hafter := (h.withReplicas wanted since).primary
    rw [List.countP_eq_length_filter, List.length_eq_one_iff] at hbefore hafter
    obtain ⟨c, hc⟩ := hbefore
    obtain ⟨d, hd⟩ := hafter
    -- the primary is not taken out, so it is the one afterwards
    have hmem : c ∈ x.copies.filter (·.primary) := hc ▸ List.mem_singleton_self c
    obtain ⟨hmem, hprim⟩ := List.mem_filter.mp hmem
    have hkept : c ∈ (x.withReplicas wanted since).copies.filter (·.primary) :=
      List.mem_filter.mpr ⟨mem_withReplicas_of_primary hmem hprim, hprim⟩
    rw [hd, List.mem_singleton] at hkept
    exact ⟨c, hc, hkept ▸ hd⟩
  case replicas => exact h.length_withReplicas wanted since
  case grown =>
    intro hfew
    rcases Nat.lt_or_eq_of_le hfew with hlt | heq
    · simp only [ShardTable.withReplicas, if_pos hlt]
      exact ⟨_, rfl, fun c hc => List.eq_of_mem_replicate hc⟩
    · rw [withReplicas_of_length heq]
      exact ⟨[], (List.append_nil _).symm, fun c hc => absurd hc List.not_mem_nil⟩
  case shrunk =>
    intro hmany
    simp only [ShardTable.withReplicas, if_neg (Nat.not_lt.mpr hmany)]
    have hplaces : x.copies.zipIdx.Pairwise fun e f => e.2 < f.2 := by
      rw [← List.pairwise_map (f := Prod.snd) (R := (· < ·)), List.zipIdx_map_snd]
      exact List.pairwise_lt_range'
    have hcopies : x.copies.zipIdx.map (·.1) = x.copies := List.zipIdx_map_fst 0 x.copies
    obtain ⟨gone, hshed, hgone⟩ := shed_eq_without hplaces (n := x.replicas.length - wanted) (by
      rw [hcopies]
      omega)
    rw [hcopies] at hshed
    exact ⟨gone, hshed, hgone⟩

end ShardTable

/-! ### A cluster -/

namespace ClusterState

/-- The second snapshot is the first one with the wanted number of replicas for an index. -/
structure Resized (m : IndexMetadata) (wanted : Nat) (since : Instant) (s u : ClusterState) :
    Prop where
  shards : ∀ shard ∈ m.shardIds, ∃ x y, s.table.shard? shard = some x ∧
    u.table.shard? shard = some y ∧ x.Resized wanted since y
  declared : u.metadata.get? m.name = some { m with replicas := wanted }
  others : ∀ other, other ≠ m.name →
    u.table.get? other = s.table.get? other ∧ u.metadata.get? other = s.metadata.get? other
  members : u.members = s.members
  history : u.history = s.history
  again : ∀ later, ∃ v, u.withReplicas m.name wanted later = .ok v ∧ v.table = u.table

variable {s : ClusterState} {index : String} {m : IndexMetadata}

/-- A declared index can be given any number of replicas. -/
theorem WellFormed.exists_withReplicas (h : s.WellFormed) (hm : s.metadata.get? index = some m)
    (wanted : Nat) (since : Instant) : ∃ u, s.withReplicas index wanted since = .ok u := by
  have hdeclared : s.metadata.contains index = true := by rw [SortedMap.contains, hm]; rfl
  obtain ⟨t, ht⟩ := Option.isSome_iff_exists.mp ((h.sameIndices index).trans hdeclared)
  have htable : ∃ table, s.table.setReplicas index wanted since = .ok table := by
    rw [RoutingTable.setReplicas, ht]
    exact ⟨_, rfl⟩
  obtain ⟨table, htable⟩ := htable
  exact ⟨_, bind_eq_ok_iff.mpr ⟨table, htable, if_pos hdeclared⟩⟩

theorem WellFormed.resized (h : s.WellFormed) (hm : s.metadata.get? index = some m)
    {wanted : Nat} {since : Instant} {u : ClusterState}
    (hu : s.withReplicas index wanted since = .ok u) : Resized m wanted since s u := by
  have hwf := h.withReplicas hu
  obtain rfl := h.keyed hm
  obtain ⟨old, m', hold, hm', rfl⟩ := withReplicas_ok hu
  obtain rfl : m = m' := Option.some_inj.mp (hm.symm.trans hm')
  have hdeclared : (s.metadata.modify m.name fun m => { m with replicas := wanted }).get? m.name =
      some { m with replicas := wanted } := by
    rw [SortedMap.get?_modify, if_pos rfl, hm]
    rfl
  have hindex := h.indices hm hold
  constructor
  case shards =>
    intro shard hshard
    obtain ⟨x, hx, -, hmem⟩ := hindex.getElem? hshard
    have hname := (IndexMetadata.mem_shardIds.mp hshard).1
    refine ⟨x, x.withReplicas wanted since, ?_, ?_, (hindex.wellFormed x hmem).resized _ _⟩
    · rw [RoutingTable.shard?, hname, hold, Option.bind_some, hx]
    · rw [RoutingTable.shard?, hname, SortedMap.get?_insert_self, Option.bind_some,
        List.getElem?_map, hx, Option.map_some]
  case declared => exact hdeclared
  case others =>
    intro other hne
    exact ⟨SortedMap.get?_insert_of_ne _ hne _, by rw [SortedMap.get?_modify, if_neg hne]⟩
  case members => rfl
  case history => rfl
  case again =>
    intro later
    obtain ⟨v, hv⟩ := hwf.exists_withReplicas hdeclared wanted later
    obtain ⟨t, m', ht, -, rfl⟩ := withReplicas_ok hv
    obtain rfl := Option.some_inj.mp ((SortedMap.get?_insert_self _ _ _).symm.trans ht)
    have hsame : (old.shards.map (·.withReplicas wanted since)).map
        (·.withReplicas wanted later) = old.shards.map (·.withReplicas wanted since) := by
      rw [List.map_map]
      refine List.map_congr_left fun x hx => ?_
      exact ShardTable.withReplicas_of_length
        ((hindex.wellFormed x hx).length_withReplicas wanted since)
    refine ⟨_, hv, SortedMap.ext_get? fun name => ?_⟩
    simp only [SortedMap.get?_insert, hsame]
    split <;> rfl

end ClusterState

/-- Another number of replicas for a declared index is never refused.  Every shard of the index
keeps its primary and gets as many replicas; the least valuable ones go.  Nothing else changes,
and asking for the same number again changes no copy. -/
theorem reachable_withReplicas {s : ClusterState} (h : Reachable s) {index : String}
    {m : IndexMetadata} (hm : s.metadata.get? index = some m) (wanted : Nat) (since : Instant) :
    ∃ u, s.withReplicas index wanted since = .ok u ∧ ClusterState.Resized m wanted since s u := by
  obtain ⟨u, hu⟩ := h.wellFormed.exists_withReplicas hm wanted since
  exact ⟨u, hu, h.wellFormed.resized hm hu⟩

/-- While the primary moves, its replica is dropped. -/
theorem reachable_withReplicas_moving :
    movingCluster.metadata.get? "x" = some ⟨"x", 1, 1⟩ ∧
    ∃ u, movingCluster.withReplicas "x" 0 ⟨1, 0⟩ = .ok u ∧
      ClusterState.Resized ⟨"x", 1, 1⟩ 0 ⟨1, 0⟩ movingCluster u := by
  have hm : movingCluster.metadata.get? "x" = some ⟨"x", 1, 1⟩ := by decide +kernel
  exact ⟨hm, reachable_withReplicas standardReachable_movingCluster.reachable hm 0 ⟨1, 0⟩⟩

end ShardAllocation
