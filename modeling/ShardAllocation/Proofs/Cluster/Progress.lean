/-
The limits on recoveries hold nothing up for good.

In a snapshot without recoveries and without copies on departed nodes a pass that has nothing to
take into account places a copy exactly if the deciders that do not count recoveries say yes to
some slot that waits, or to a replica that a shard lacks, on some member.  Whatever the limits are,
whatever else waits and in whichever order nodes and slots are tried, a copy that could be placed
does not keep waiting while nothing is in flight.

* `ClusterState.Placeable` — some copy has a member that would take it;
* `Passage.settled_first`, `Passage.allLive_first` — how such a pass begins;
* `reachable_places_iff` — whether it places a copy.
-/
import ShardAllocation.Proofs.Cluster.Convergence
import ShardAllocation.Proofs.Cluster.Limits
import ShardAllocation.Proofs.Pass.Filling

namespace ShardAllocation

/-- Some slot that waits, or some replica that a shard lacks, has a member that would take it but
for the limits on recoveries.  The pass is one over the snapshot that is about to begin. -/
def ClusterState.Placeable (s : ClusterState) (p : Pass) : Prop :=
  (∃ c ∈ s.table.copies, c.isUnassigned = true ∧ Pass.isLostPrimary c = false ∧
    ∃ node ∈ p.view.liveNodes, p.Suits c node) ∨
  ∃ m ∈ s.metadata.values, ∃ shard ∈ m.shardIds, p.view.slotCount shard < 1 + m.replicas ∧
    ∃ node ∈ p.view.liveNodes, p.Suits (p.replica shard) node

instance (s : ClusterState) (p : Pass) : Decidable (s.Placeable p) :=
  inferInstanceAs (Decidable (_ ∨ _))

namespace Passage

variable {a : Allocator} {s : ClusterState} {t : Trigger} {r : RerouteResult} {p m q : Pass}

/-- A pass over a snapshot without recoveries begins without recoveries. -/
theorem settled_first (h : Passage a s t r p m q) (hs : s.WellFormed) (hsettled : s.Settled) :
    p.view.Settled := by
  intro shard n c hc
  obtain ⟨d, hd, hshard, hat⟩ := (h.loaded.copyOn?_iff _ _ _).mp hc
  obtain ⟨hinit, hrel⟩ := hsettled d hd
  rcases hat with ⟨hn, rfl⟩ | ⟨-, htarget⟩
  · have hshape := hs.loadable.stored c hd
    cases hstate : c.state with
    | started => rfl
    | initializing => exact absurd hstate hinit
    | relocating => exact absurd hstate hrel
    | unassigned =>
      rw [Copy.Stored, hstate] at hshape
      rw [hshape.1] at hn
      cases hn
  · exact absurd (Copy.relocationTarget?_eq_some_iff.mp htarget).1 hrel

/-- A pass over a snapshot with all copies on members knows members only. -/
theorem allLive_first (h : Passage a s t r p m q)
    (hmembers : ∀ c ∈ s.table.copies, ∀ n ∈ c.nodes, s.members.contains n = true) :
    p.AllLive := by
  intro n hn
  rw [h.isLive_iff]
  rcases h.loaded.nodesIn n hn with hmem | ⟨c, hc, hn⟩
  · exact SortedMap.mem_keys_iff.mp hmem
  · exact hmembers c hc n hn

/-- A pass that begins without recoveries can place a copy exactly if one has a member that would
take it. -/
theorem not_unfillable_iff (h : Passage a s t r p m q) (hset : a.settings.validate = .ok ())
    (hsettled : p.view.Settled) :
    ¬ Pass.Unfillable Decider.standard p ↔ s.Placeable p := by
  have hset : p.settings.validate = .ok () := by rw [h.settings, hset]
  have hsuits : ∀ c, ¬ Pass.Stuck Decider.standard p c none ↔
      ∃ node ∈ p.view.liveNodes, p.Suits c node :=
    fun c => Pass.not_stuck_iff_suits h.sound hsettled hset
  have hwaits : ∀ {c}, c ∈ p.view.unassigned ↔ c ∈ s.table.copies ∧ c.isUnassigned = true :=
    fun {c} => by rw [h.loaded.unassigned, List.mem_filter]
  have hcapacity : ∀ {i : IndexMetadata} {shard}, i ∈ s.metadata.values → shard ∈ i.shardIds →
      p.state.metadata.capacity shard = 1 + i.replicas := by
    intro i shard hi hshard
    rw [← h.state] at hi
    exact Pass.capacity_of_mem h.sound hi hshard
  constructor
  · intro hfillable
    by_contra hnone
    refine hfillable ⟨fun c hc => ?_, fun shard hroom => ?_⟩
    · obtain ⟨hmem, hstate⟩ := hwaits.mp hc
      rw [or_iff_not_imp_left, Bool.not_eq_true]
      intro hlost
      by_contra hstuck
      exact hnone (.inl ⟨c, hmem, hstate, hlost, (hsuits c).mp hstuck⟩)
    · by_contra hstuck
      obtain ⟨i, hi, hshard⟩ := Pass.exists_mem_shardIds h.sound
        (Metadata.knows_of_capacity_pos (Nat.zero_lt_of_lt hroom))
      rw [h.state] at hi
      rw [hcapacity hi hshard] at hroom
      exact hnone (.inr ⟨i, hi, shard, hshard, hroom, (hsuits _).mp hstuck⟩)
  · rintro (⟨c, hmem, hstate, hlost, hnode⟩ | ⟨i, hi, shard, hshard, hroom, hnode⟩) hnone
    · rcases hnone.waiting c (hwaits.mpr ⟨hmem, hstate⟩) with hlost' | hstuck
      · rw [hlost] at hlost'
        cases hlost'
      · exact (hsuits c).mpr hnode hstuck
    · rw [← hcapacity hi hshard] at hroom
      exact (hsuits _).mpr hnode (hnone.missing shard hroom)

end Passage

/-- Over a reachable snapshot in which no copy initializes or moves and every copy is on a member,
a pass without reports and commands places a copy exactly if the deciders that do not count
recoveries say yes to some copy on some member. -/
theorem reachable_places_iff {s : ClusterState} (h : Reachable s) {a : Allocator}
    (hset : a.settings.validate = .ok ()) (hds : a.deciders = Decider.standard)
    (hsettled : s.Settled)
    (hmembers : ∀ c ∈ s.table.copies, ∀ n ∈ c.nodes, s.members.contains n = true)
    {t : Trigger} (ht : t.Quiet) :
    ∃ p r, Pass.begin s a.settings t.time = .ok p ∧ a.reroute s t = .ok r ∧
      ((∃ shard n primary source, .initialized shard n primary source ∈ r.transitions) ↔
        s.Placeable p) := by
  have hsame : Decider.sameShard ∈ a.deciders := by simp [hds, Decider.standard]
  have hstandard : a.deciders ⊆ Decider.standard := hds ▸ List.Subset.refl _
  obtain ⟨r, p, m, q, hr, hpass⟩ := Allocator.exists_reroute h.wellFormed hset hsame t
  refine ⟨p, r, hpass.begins, hr, ?_⟩
  -- the whole pass consists of the placing phases, and no command gives lost data up
  let P : Pass.Policy := ⟨a.deciders, t, fun _ => False⟩
  have hphases := hpass.phases
  rw [Pass.phases_eq_placements (hpass.allLive_first hmembers) ht] at hphases
  obtain ⟨⟨⟩, u, hplacements, hu⟩ := exists_of_bind_ok hphases
  obtain rfl : u = q := by injection hu
  obtain ⟨hruns, hfills⟩ := (Pass.placements_fills (P := P) hpass.sound hstandard).of_ok hplacements
  rw [hpass.transitions_eq, ← hpass.not_unfillable_iff hset
    (hpass.settled_first h.wellFormed hsettled), ← hds]
  constructor
  · exact hruns.fillable hpass.sound hstandard hpass.covers_first (fun _ hforced => hforced)
      hpass.loaded.transitions
  · exact hfills.resolve_right

/-- Both members have left, and another one has joined.  The primary of `x` is lost, its replica
has nothing to be filled from, and a new index waits. -/
def strandedCluster : ClusterState :=
  ((filledCluster.withMembers (SortedMap.ofList [("c", none)])).after .idle).declaring ⟨"y", 1, 1⟩

theorem reachable_strandedCluster : Reachable strandedCluster := by
  have hleft := standardReachable_filledCluster.step
    (.members (SortedMap.ofList [("c", none)])) trivial
  exact (hleft.after .idle).reachable.declaring ⟨"y", 1, 1⟩

/-- Only the primary of the new index can be placed, and it is, one recovery at a time. -/
theorem reachable_places_iff_stranded :
    strandedCluster.Settled ∧
    (∀ c ∈ strandedCluster.table.copies, ∀ n ∈ c.nodes,
      strandedCluster.members.contains n = true) ∧
    ∃ p r, Pass.begin strandedCluster oneByOne ⟨0, 0⟩ = .ok p ∧
      ({ settings := oneByOne } : Allocator).reroute strandedCluster .idle = .ok r ∧
      strandedCluster.Placeable p ∧
      ∃ shard n primary source, .initialized shard n primary source ∈ r.transitions := by
  have hsettled : strandedCluster.Settled := by decide +kernel
  have hmembers : ∀ c ∈ strandedCluster.table.copies, ∀ n ∈ c.nodes,
      strandedCluster.members.contains n = true := by
    decide +kernel
  refine ⟨hsettled, hmembers, ?_⟩
  obtain ⟨p, r, hbegin, hr, hiff⟩ := reachable_places_iff reachable_strandedCluster
    (a := { settings := oneByOne }) rfl rfl hsettled hmembers Trigger.quiet_idle
  have hrun : (Pass.begin strandedCluster oneByOne ⟨0, 0⟩).toOption.any
      (fun p => strandedCluster.Placeable p) = true := by
    decide +kernel
  obtain ⟨u, hu, hplaceable⟩ := exists_ok_of_any hrun
  obtain rfl : p = u := Except.ok.inj (hbegin.symm.trans hu)
  exact ⟨p, r, hbegin, hr, hplaceable, hiff.mpr hplaceable⟩

end ShardAllocation
