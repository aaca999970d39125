/-
What happens to the shards of nodes that left the cluster.

A pass first takes in reports and then reconciles the nodes that hold copies without being
members.  However many of them there are and however the two halves of moves are spread over
them, the reconciliation ends without a fault and does to each shard what its case asks for:
`Retained` says of each copy where and how it stays, and `Reconciled` gives the cases one by one.

* `Retained.of_remains` — the copies that stay, in their new roles;
* `Becomes.reconciled` — the cases, read off what remains of a shard;
* `takeIn_leads` — reports keep a pass sound;
* `reachable_reconcile` — the reconciliation of every view that a pass can come to.
-/
import ShardAllocation.Proofs.Cluster.Survival
import ShardAllocation.Proofs.Pass.Reconciliation

namespace ShardAllocation

namespace View

open Pass (hasLiveReplica)

/-- The copy is lost: it is on a departed node, or it is a replica that was being filled from a
primary on one.  The target of a move is no copy of its own, and a primary is lost only if no
replica takes over. -/
def Lost (v : View) (s : ShardId) (c : Copy) : Prop :=
  ∃ n, v.copyOn? s n = some c ∧ c.isRelocationTarget = false ∧
    (v.isLive n = false ∧ (c.primary = true → v.promotable s = []) ∨
      isRecoveringReplica c = true ∧ v.primaryLeft s = true)

/-- What becomes of the copies of a shard, each on its node: `w` from `v`.  The copies on the nodes
`up` are raised to primaries, and no other copy changes its role. -/
structure Retained (s : ShardId) (up : List NodeId) (v w : View) : Prop where
  /-- No node gets a copy. -/
  empty : ∀ n, v.copyOn? s n = none → w.copyOn? s n = none
  /-- No departed node keeps one. -/
  departed : ∀ n, v.isLive n = false → w.copyOn? s n = none
  /-- A copy on a member stays as it is, with its move if the other end of that is on a member,
  too.  This goes for copies that are being filled as well, while their source is there. -/
  stays : ∀ n c, v.copyOn? s n = some c → v.isLive n = true →
    (∀ k, c.peer = some k → v.isLive k = true) →
    (isRecoveringReplica c = true → v.primaryLeft s = false) →
    w.copyOn? s n = some (if n ∈ up then c.asPrimary else c)
  /-- A move from a member to a departed node is undone: its source is started where it is. -/
  recalled : ∀ n k c, v.copyOn? s n = some c → c.state = .relocating → c.peer = some k →
    v.isLive n = true → v.isLive k = false →
    w.copyOn? s n = some (if n ∈ up then c.settled.asPrimary else c.settled)
  /-- A move whose source departed leaves nothing on its target. -/
  abandoned : ∀ n k c, v.copyOn? s n = some c → c.state = .relocating → c.peer = some k →
    v.isLive n = false → w.copyOn? s n = none ∧ w.copyOn? s k = none
  /-- A replica that was being filled from a primary on a departed node is gone. -/
  stripped : ∀ n c, v.copyOn? s n = some c → isRecoveringReplica c = true →
    v.primaryLeft s = true → w.copyOn? s n = none

/-- What the reconciliation owes a shard: `w` from `v`. -/
structure Reconciled (s : ShardId) (v w : View) : Prop where
  /-- A shard with nothing on a departed node is left alone. -/
  untouched : (∀ n, v.isLive n = false → v.copyOn? s n = none) →
    w.copyOn? s = v.copyOn? s ∧ w.unassignedOf s = v.unassignedOf s
  /-- If the primary did not depart, or no replica takes over from it, then the copies that stay
  do so in their roles. -/
  retained : (v.primaryLeft s = true → v.promotable s = []) → Retained s [] v w
  /-- Each lost copy leaves one slot of its role, and no other slot comes. -/
  slots : ∃ lost : List (Copy × UnassignedInfo), (lost.map (·.1)).Nodup ∧
    (∀ c, c ∈ lost.map (·.1) ↔ v.Lost s c) ∧
    w.unassignedOf s = v.unassignedOf s ++ lost.map fun e =>
      Copy.newUnassigned s e.1.primary { e.2 with lostActiveCopy := e.1.isActive }
  /-- If the primary did not depart, the shard keeps the number of its slots. -/
  steady : v.primaryLeft s = false → w.slotCount s = v.slotCount s
  /-- If it did, one of the active replicas on members is the primary, where it is, and one slot
  is dropped.  The target of the successor's move is raised along with it, and no other copy. -/
  succeeded : ∀ n c, v.copyOn? s n = some c → c.primary = true → c.isRelocationTarget = false →
    v.isLive n = false → v.promotable s ≠ [] →
    (∃ k, ∃ r ∈ v.promotable s, r.node = some k ∧ Retained s (k :: r.peer.toList) v w ∧
      ∃ d, w.primary? s = some d ∧ d.node = r.node ∧ d.isActive = true) ∧
      w.slotCount s + 1 = v.slotCount s
  /-- Without such a replica its slot waits, and says whether the primary was active. -/
  orphaned : ∀ n c, v.copyOn? s n = some c → c.primary = true → c.isRelocationTarget = false →
    v.isLive n = false → v.promotable s = [] →
    (∃ info, info.lostActiveCopy = c.isActive ∧ Copy.newUnassigned s true info ∈ w.unassigned) ∧
      w.primary? s = none ∧ w.slotCount s = v.slotCount s

variable {v w : View} {s : ShardId} {n k : NodeId} {c d : Copy} {m m' : Metadata}

theorem hasLiveReplica_eq_false_iff (h : v.Consistent) :
    hasLiveReplica v s = false ↔ v.promotable s = [] := by
  rw [Bool.eq_false_iff, ne_eq, hasLiveReplica_iff h.indexed, ne_eq, not_not]

theorem succeeds_eq_false (h : v.Consistent)
    (hnone : v.primaryLeft s = true → v.promotable s = []) : v.succeeds s = false := by
  cases hleft : v.primaryLeft s with
  | false => rw [succeeds, hleft, Bool.false_and]
  | true => rw [succeeds, (hasLiveReplica_eq_false_iff h).mpr (hnone hleft), Bool.and_false]

theorem lost_iff (h : v.Consistent) : v.Lost s c ↔ ∃ n, v.Frees s n c := by
  have hfollowed := hasLiveReplica_eq_false_iff (s := s) h
  refine exists_congr fun n => ?_
  constructor
  · rintro ⟨hc, ht, ⟨hn, hprim⟩ | ⟨hrec, hleft⟩⟩
    · exact ⟨hc, ht, remains_of_not_isLive hn, fun h => hfollowed.mpr (hprim h)⟩
    · refine ⟨hc, ht, remains_of_recovering hc hrec hleft, fun hprim => ?_⟩
      rw [(isRecoveringReplica_iff.mp hrec).1] at hprim
      cases hprim
  · rintro ⟨hc, ht, hgone, hprim⟩
    refine ⟨hc, ht, ?_⟩
    by_cases hn : v.isLive n = true
    · -- on a member only a replica that is being filled goes
      right
      cases hp : c.peer with
      | some k =>
        rw [isLive_of_gone h hc ht hp hgone] at hn
        cases hn
      | none => simpa [remains, hn, hc, Copy.remainder, hp] using hgone
    · exact .inl ⟨Bool.not_eq_true _ ▸ hn, fun h => hfollowed.mp (hprim h)⟩

/-- The copies that remain stay, and those on the nodes `up` are raised. -/
theorem Retained.of_remains {up : List NodeId} (hv : v.Consistent)
    (h : ∀ n, w.copyOn? s n = (v.remains s n).map fun d => if n ∈ up then d.asPrimary else d) :
    Retained s up v w := by
  have hgone : ∀ {n}, v.remains s n = none → w.copyOn? s n = none := fun hnone => by
    rw [h, hnone, Option.map_none]
  have hstays : ∀ {n c d}, v.copyOn? s n = some c → v.isLive n = true →
      c.remainder v.isLive (v.primaryLeft s) = some d →
      w.copyOn? s n = some (if n ∈ up then d.asPrimary else d) := fun hc hn hd => by
    rw [h, remains_eq_some.mpr ⟨hn, _, hc, hd⟩, Option.map_some]
  constructor
  case empty => exact fun n hn => hgone (by simp [remains, hn])
  case departed => exact fun n hn => hgone (remains_of_not_isLive hn)
  case stays =>
    exact fun n c hc hn hpeer hleft => hstays hc hn (Copy.remainder_eq_self hpeer hleft)
  case recalled =>
    exact fun n k c hc hrel hp hn hk => hstays hc hn (Copy.remainder_of_relocating hrel hp hk)
  case abandoned =>
    intro n k c hc hrel hp hn
    obtain ⟨j, t, hj, -, ht, hinit, hback, -⟩ := (hv.linked s).target hc hrel
    obtain rfl : k = j := Option.some_inj.mp (hp.symm.trans hj)
    refine ⟨hgone (remains_of_not_isLive hn), hgone ?_⟩
    simp only [remains, ht, Option.bind_some, Copy.remainder_of_target hinit hback hn, ite_self]
  case stripped => exact fun n c hc hrec hleft => hgone (remains_of_recovering hc hrec hleft)

namespace Becomes

/-- Without a replica that takes over the copies stay in their roles. -/
theorem retained (h : Becomes s v w) (hv : v.Consistent) (hsucc : v.succeeds s = false) :
    Retained s [] v w :=
  .of_remains hv fun n => by
    rw [h.layout hsucc]
    simp

/-- If no replica takes over, the primary of a shard was so before, on the same member. -/
theorem exists_primary (h : Becomes s v w) (hsucc : v.succeeds s = false)
    (hd : w.copyOn? s k = some d) (hprim : d.primary = true) (ht : d.isRelocationTarget = false) :
    ∃ c, v.copyOn? s k = some c ∧ c.primary = true ∧ c.isRelocationTarget = false ∧
      v.isLive k = true := by
  rw [h.layout hsucc] at hd
  obtain ⟨hk, c, hc, hrem⟩ := remains_eq_some.mp hd
  exact ⟨c, hc, (Copy.primary_of_remainder hrem).symm.trans hprim,
    (Copy.isRelocationTarget_of_remainder hrem).symm.trans ht, hk⟩

theorem untouched (h : Becomes s v w) (hv : v.Sound m)
    (hempty : ∀ n, v.isLive n = false → v.copyOn? s n = none) :
    w.copyOn? s = v.copyOn? s ∧ w.unassignedOf s = v.unassignedOf s := by
  have hlive : ∀ k c, v.copyOn? s k = some c → v.isLive k = true := fun k c hc => by
    by_contra hk
    rw [hempty k (Bool.not_eq_true _ ▸ hk)] at hc
    cases hc
  have hremains := remains_of_isLive hv.consistent hlive
  have hnone : v.succeeds s = false := by
    rw [succeeds, primaryLeft_of_isLive hv.consistent hlive, Bool.false_and]
  obtain ⟨lost, -, hmem, heq⟩ := h.slots
  have hlost : lost = [] := by
    refine List.eq_nil_iff_forall_not_mem.mpr fun e he => ?_
    obtain ⟨n, hc, -, hgone, -⟩ := (hmem e.1).mp (List.mem_map_of_mem he)
    rw [hremains, hc] at hgone
    cases hgone
  refine ⟨(h.layout hnone).trans hremains, ?_⟩
  rw [heq, hlost, List.map_nil, List.append_nil]

theorem slots_lost (h : Becomes s v w) (hv : v.Sound m) :
    ∃ lost : List (Copy × UnassignedInfo), (lost.map (·.1)).Nodup ∧
      (∀ c, c ∈ lost.map (·.1) ↔ v.Lost s c) ∧
      w.unassignedOf s = v.unassignedOf s ++ lost.map fun e =>
        Copy.newUnassigned s e.1.primary { e.2 with lostActiveCopy := e.1.isActive } := by
  obtain ⟨lost, hnodup, hmem, heq⟩ := h.slots
  refine ⟨lost, hnodup, fun c => (hmem c).trans (lost_iff hv.consistent).symm, ?_⟩
  rw [heq]
  refine congrArg _ (List.map_congr_left fun e he => ?_)
  obtain ⟨n, hc, -⟩ := (hmem e.1).mp (List.mem_map_of_mem he)
  rw [Copy.slot, (hv.consistent.own hc).1]

/-- The replica that takes over is raised where it is, with the target of its move. -/
theorem succeeded (h : Becomes s v w) (hv : v.Sound m) (hw : w.Sound m')
    (hleft : v.primaryLeft s = true) (hcan : v.promotable s ≠ []) :
    (∃ k, ∃ r ∈ v.promotable s, r.node = some k ∧ Retained s (k :: r.peer.toList) v w ∧
      ∃ d, w.primary? s = some d ∧ d.node = r.node ∧ d.isActive = true) ∧
      w.slotCount s + 1 = v.slotCount s := by
  have hsucc : v.succeeds s = true := by
    rw [succeeds, hleft, (hasLiveReplica_iff hv.consistent.indexed).mpr hcan]
    rfl
  have hcount := h.count
  rw [hsucc, Bool.toNat_true] at hcount
  refine ⟨?_, hcount⟩
  obtain ⟨k, d, hd, hprim, hactive, heq⟩ := h.raised hsucc
  -- what is raised remained of a replica that could take over
  obtain ⟨hk, r, hr, -⟩ := remains_eq_some.mp hd
  obtain ⟨hdprim, hdactive⟩ := of_remains hr hd
  have hnode := (hv.consistent.own hr).2
  have hmem : r ∈ v.promotable s := (mem_promotable hv.consistent.indexed).mpr
    ⟨⟨k, hr⟩, hdprim.symm.trans hprim, hdactive.symm.trans hactive, by
      rw [hnode, Option.any_some, hk]⟩
  have hretained : Retained s (k :: r.peer.toList) v w := by
    obtain ⟨e, he, -, -, hsame⟩ :=
      exists_promote_remains hv.consistent hr (hdactive.symm.trans hactive) hk
    obtain rfl : d = e := Option.some_inj.mp (hd.symm.trans he)
    refine .of_remains hv.consistent fun n => ?_
    rw [heq, ← hsame, Layout.promote_eq_map]
  have hraised : w.copyOn? s k = some d.asPrimary := by
    rw [heq, Layout.promote, if_pos (.inl rfl), hd]
    rfl
  have hprimary := hw.primary?_eq hraised (Copy.isRelocationTarget_of_active hactive) rfl
  exact ⟨k, r, hmem, hnode, hretained, _, hprimary,
    (hw.consistent.own hraised).2.trans hnode.symm, hactive⟩

theorem orphaned (h : Becomes s v w) (hv : v.Sound m) (hw : w.Consistent)
    (hc : v.copyOn? s n = some c) (hprim : c.primary = true) (ht : c.isRelocationTarget = false)
    (hn : v.isLive n = false) (hnone : v.promotable s = []) :
    (∃ info, info.lostActiveCopy = c.isActive ∧ Copy.newUnassigned s true info ∈ w.unassigned) ∧
      w.primary? s = none ∧ w.slotCount s = v.slotCount s := by
  have hsucc := succeeds_eq_false hv.consistent fun _ => hnone
  have hcount := h.count
  rw [hsucc, Bool.toNat_false, Nat.add_zero] at hcount
  refine ⟨?_, ?_, hcount⟩
  · obtain ⟨lost, -, hmem, heq⟩ := h.slots_lost hv
    obtain ⟨e, he, hec⟩ := List.mem_map.mp
      ((hmem c).mpr ⟨n, hc, ht, .inl ⟨hn, fun _ => hnone⟩⟩)
    refine ⟨{ e.2 with lostActiveCopy := e.1.isActive }, by rw [hec], ?_⟩
    have hwait : Copy.newUnassigned s e.1.primary { e.2 with lostActiveCopy := e.1.isActive } ∈
        w.unassignedOf s := by
      rw [heq]
      exact List.mem_append_right _ (List.mem_map.mpr ⟨e, he, rfl⟩)
    rw [hec, hprim] at hwait
    rw [hec]
    exact (List.mem_filter.mp hwait).1
  · refine List.find?_eq_none.mpr fun d hd hslot => ?_
    rw [Bool.and_eq_true, Bool.not_eq_true'] at hslot
    obtain ⟨k, hk⟩ := (mem_copies_iff hw.indexed).mp hd
    obtain ⟨e, he, heprim, het, hlive⟩ := h.exists_primary hsucc hk hslot.1 hslot.2
    obtain rfl : k = n := hv.primary_unique hc he ht het hprim heprim
    rw [hn] at hlive
    cases hlive

/-- The cases of the reconciliation. -/
theorem reconciled (h : Becomes s v w) (hv : v.Sound m) (hw : w.Sound m') :
    Reconciled s v w := by
  constructor
  case untouched => exact h.untouched hv
  case retained =>
    exact fun hnone => h.retained hv.consistent (succeeds_eq_false hv.consistent hnone)
  case slots => exact h.slots_lost hv
  case steady =>
    intro hleft
    have hcount := h.count
    rwa [succeeds, hleft, Bool.false_and, Bool.toNat_false, Nat.add_zero] at hcount
  case succeeded =>
    intro n c hc hprim ht hn hcan
    exact h.succeeded hv hw ((primaryLeft_iff hv.consistent).mpr ⟨n, c, hc, hprim, ht, hn⟩) hcan
  case orphaned =>
    exact fun n c hc hprim ht hn hnone => h.orphaned hv hw.consistent hc hprim ht hn hnone

end Becomes

end View

namespace Pass

variable {F : Prop} {p q : Pass}

/-- A report of either kind is taken in. -/
def takeIn : StartedReport ⊕ FailedReport → Phase Unit
  | .inl r => applyStarted r
  | .inr r => applyFailed r

/-- Reports keep a pass sound, and they concern neither its snapshot nor the members. -/
theorem takeIn_leads (hp : p.Sound) (reports : List (StartedReport ⊕ FailedReport)) :
    Leads F (reports.forM takeIn) p fun _ q =>
      q.Sound ∧ q.state = p.state ∧ q.view.live = p.view.live := by
  refine leads_forM_mem (I := fun q => q.Sound ∧ q.state = p.state ∧ q.view.live = p.view.live)
    ⟨hp, rfl, rfl⟩ ?_
  rintro report - q ⟨hq, hstate, hlive⟩
  have hruns : ∀ {G : Pass → Change → Prop} {r : Pass}, Runs G q r →
      r.Sound ∧ r.state = p.state ∧ r.view.live = p.view.live := fun hr =>
    ⟨hr.sound hq, hr.frame.1.trans hstate, hr.frame.2.2.2.trans hlive⟩
  cases report with
  | inl r =>
    let P : Policy := ⟨[], { reason := "", time := ⟨0, 0⟩, started := [r] }, fun _ => False⟩
    exact (applyStarted_leads (P := P) hq (List.mem_singleton_self r)).mono fun _ _ hr => hruns hr.1
  | inr r =>
    let P : Policy := ⟨[], { reason := "", time := ⟨0, 0⟩, failed := [r] }, fun _ => False⟩
    exact (applyFailed_leads (P := P) hq (List.mem_singleton_self r)).mono fun _ _ hr => hruns hr

end Pass

/-- A pass over a reachable snapshot, whatever reports it took in, reconciles the departed nodes
without a fault.  Afterwards its view knows members only, and every shard got what its case asks
for. -/
theorem reachable_reconcile {s : ClusterState} (h : Reachable s) (settings : Settings)
    (time : Instant) (reports : List (StartedReport ⊕ FailedReport)) :
    ∃ p q r, Pass.begin s settings time = .ok p ∧ (reports.forM Pass.takeIn) p = .ok () q ∧
      Pass.reconcile q = .ok () r ∧ (∀ n, q.view.isLive n = s.members.contains n) ∧
      (∀ n, r.view.nodes.contains n = true → s.members.contains n = true) ∧
      ∀ shard, View.Reconciled shard q.view r.view := by
  obtain ⟨p, hbegin, hp, hstate, -, -, hloaded⟩ := h.wellFormed.begin_eq settings time
  obtain ⟨⟨⟩, q, hreports, hq, -, hlive⟩ := (Pass.takeIn_leads (F := False) hp reports).exists_ok id
  obtain ⟨⟨⟩, r, hreconcile, hruns, hall⟩ := (Pass.reconcile_leads (F := False) hq).exists_ok id
  have hmembers : ∀ n, q.view.isLive n = s.members.contains n := fun n => by
    rw [View.isLive, hlive, hloaded.live, Bool.eq_iff_iff, SortedSet.contains_ofList,
      decide_eq_true_eq, SortedMap.mem_keys_iff]
  refine ⟨p, q, r, hbegin, hreports, hreconcile, hmembers, fun n hn => ?_, fun shard => ?_⟩
  · rw [← hmembers, ← hruns.isLive_eq]
    exact hall n hn
  · exact (hruns.becomes hq hall shard).reconciled hq.view (hruns.sound hq).view

/-- The node of the primary left, and the replica on the other node is reported to have failed. -/
theorem reachable_reconcile_departed :
    ∃ p q r, Pass.begin departedCluster {} ⟨1, 0⟩ = .ok p ∧
      ([.inr ⟨⟨"x", 0⟩, "b", "gone"⟩].forM Pass.takeIn) p = .ok () q ∧
      Pass.reconcile q = .ok () r ∧ (∀ n, q.view.isLive n = departedCluster.members.contains n) ∧
      (∀ n, r.view.nodes.contains n = true → departedCluster.members.contains n = true) ∧
      ∀ shard, View.Reconciled shard q.view r.view :=
  reachable_reconcile (standardReachable_filledCluster.step (.members _) trivial).reachable {}
    ⟨1, 0⟩ [.inr ⟨⟨"x", 0⟩, "b", "gone"⟩]

end ShardAllocation
