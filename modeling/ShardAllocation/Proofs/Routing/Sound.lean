/-
Sound views: what every view of a pass satisfies.

A view is sound for some metadata when it is consistent and shaped, each declared shard
has one primary, and no shard has more slots than its index asks for.  Every change of a
pass keeps a view sound, which is shown here for each of them.

* `Sound.settle`, `Sound.depart`, `Sound.release`, `Sound.install`, ... — the changes;
* `Sound.surrender`, `Sound.handOver` — a lost primary and the replica that takes over;
* `Sound.knows_of_copyOn?` — a sound view holds copies of declared shards only.
-/
import ShardAllocation.Proofs.Routing.Slots

namespace ShardAllocation

namespace Metadata

/-- The slots that a shard may have; none, if no index declares it. -/
def capacity (m : Metadata) (s : ShardId) : Nat :=
  if m.knows s then ((m.get? s.index).map (·.copiesPerShard)).getD 0 else 0

theorem knows_of_capacity_pos {m : Metadata} {s : ShardId} (h : 0 < m.capacity s) :
    m.knows s = true := by
  unfold capacity at h
  split at h
  · assumption
  · omega

end Metadata

namespace View

/-! ### Changes that consist of several -/

/-- A copy leaves its node and its slot waits. -/
def release (v : View) (n : NodeId) (c : Copy) (info : UnassignedInfo) : View :=
  ((v.vacate n c).queue (c.slot info)).noted (.unassigned c.shard n info.reason)

/-- A slot is filled, and a recovery noted. -/
def install (v : View) (n : NodeId) (c : Copy) : View :=
  (v.occupy n c).noted (.initialized c.shard n c.primary ((v.occupy n c).recoverySource c))

/-- A failed primary leaves its node, and a replica takes over if one can. -/
def surrender (v : View) (n : NodeId) (c : Copy) (info : UnassignedInfo) : View :=
  (v.release n c info).takeOver c.shard

/-- A primary is forgotten, and a replica takes over. -/
def handOver (v : View) (n : NodeId) (c : Copy) : View :=
  ((v.vacate n c).noted (.dropped c.shard n)).takeOver c.shard

/-- What every view of a pass satisfies. -/
structure Sound (m : Metadata) (v : View) : Prop where
  consistent : v.Consistent
  shaped : v.Shaped
  primaries : ∀ s, m.knows s = true → v.roleCount s id = 1
  room : ∀ s, v.slotCount s ≤ m.capacity s

variable {v w : View} {s : ShardId} {n k : NodeId} {c d : Copy} {m : Metadata}
variable {info : UnassignedInfo}

theorem Consistent.release (h : v.Consistent) (hc : v.copyOn? c.shard n = some c) :
    (v.release n c info).Consistent :=
  ((h.vacate hc).queue rfl).noted _

/-- A primary is forgotten, and nothing has taken over yet. -/
theorem Consistent.drop (h : v.Consistent) (hc : v.copyOn? c.shard n = some c) :
    ((v.vacate n c).noted (.dropped c.shard n)).Consistent :=
  (h.vacate hc).noted _

/-- The slot that a released copy leaves brings what the copy took. -/
theorem roleCount_release (h : v.Consistent) (hc : v.copyOn? c.shard n = some c) (s : ShardId)
    (q : Bool → Bool) : (v.release n c info).roleCount s q = v.roleCount s q := by
  have hslot : (c.slot info).share s q = c.share s q := rfl
  have hvacate := roleCount_vacate h hc s q
  have hqueue := roleCount_queue (v.vacate n c) (c.slot info) s q
  have hnoted : (v.release n c info).roleCount s q =
      ((v.vacate n c).queue (c.slot info)).roleCount s q := rfl
  rw [hslot] at hqueue
  omega

/-- The slot of a primary that was released waits. -/
theorem waitingCount_release_pos (hprim : c.primary = true) :
    0 < (v.release n c info).waitingCount c.shard id :=
  waitingCount_pos (c := c.slot info) (List.mem_append_right _ (List.mem_singleton_self _)) hprim

/-- A shard with a copy on a node has a slot. -/
theorem Consistent.slotCount_pos (h : v.Consistent) (hc : v.copyOn? s n = some c) :
    0 < v.slotCount s := by
  -- the target of a move is no slot of its own, but its source is one
  have hslot : ∃ k d, v.copyOn? s k = some d ∧ d.isRelocationTarget = false := by
    by_cases ht : c.isRelocationTarget = true
    · obtain ⟨-, hsome⟩ := Copy.isRelocationTarget_iff.mp ht
      obtain ⟨k, hp⟩ := Option.isSome_iff_exists.mp hsome
      obtain ⟨d, hd, -⟩ := (h.linked s).exists_peer hc hp
      have hother := (h.linked s).isRelocationTarget_peer hc hp hd
      exact ⟨k, d, hd, by rw [hother, ht]; rfl⟩
    · exact ⟨n, c, hc, Bool.not_eq_true _ ▸ ht⟩
  obtain ⟨k, d, hd, ht⟩ := hslot
  have hpos := assignedCount_pos (q := fun _ => true) h.indexed hd ht rfl
  rw [slotCount_eq, roleCount]
  exact Nat.lt_of_lt_of_le hpos (Nat.le_add_right _ _)

namespace Sound

/-! ### Declared shards -/

theorem knows_of_roleCount (h : v.Sound m) {q : Bool → Bool} (hcount : 0 < v.roleCount s q) :
    m.knows s = true := by
  have hassigned : v.assignedCount s q ≤ v.assignedCount s fun _ => true :=
    List.countP_mono_left fun c _ hc => by
      simp only [Copy.isSlotOf, Bool.and_true] at hc ⊢
      exact (Bool.and_eq_true_iff.mp hc).1
  have hwaiting : v.waitingCount s q ≤ v.waitingCount s fun _ => true :=
    List.countP_mono_left fun c _ hc => by
      simp only [Bool.and_true] at hc ⊢
      exact (Bool.and_eq_true_iff.mp hc).1
  have hroom := h.room s
  rw [slotCount_eq] at hroom
  simp only [roleCount] at hcount hroom
  exact Metadata.knows_of_capacity_pos (by omega)

theorem knows_of_copyOn? (h : v.Sound m) (hc : v.copyOn? s n = some c) : m.knows s = true :=
  Metadata.knows_of_capacity_pos (Nat.lt_of_lt_of_le (h.consistent.slotCount_pos hc) (h.room s))

theorem knows_of_mem (h : v.Sound m) (hc : c ∈ v.unassigned) : m.knows c.shard = true := by
  have hpos := waitingCount_pos (q := fun _ => true) hc rfl
  exact h.knows_of_roleCount (Nat.lt_of_lt_of_le hpos (Nat.le_add_left _ _))

/-- The primary of a shard is where a primary slot is. -/
theorem primary_unique (h : v.Sound m) (hc : v.copyOn? s n = some c)
    (hd : v.copyOn? s k = some d) (htc : c.isRelocationTarget = false)
    (htd : d.isRelocationTarget = false) (hpc : c.primary = true) (hpd : d.primary = true) :
    k = n :=
  View.primary_unique h.consistent.indexed (h.primaries s (h.knows_of_copyOn? hc)) hc hd htc htd
    hpc hpd

/-- A primary that is no target is the primary that the view names. -/
theorem primary?_eq (h : v.Sound m) (hc : v.copyOn? s n = some c)
    (ht : c.isRelocationTarget = false) (hprim : c.primary = true) : v.primary? s = some c := by
  have hmem := (mem_copies_iff h.consistent.indexed).mpr ⟨n, hc⟩
  cases hfind : v.primary? s with
  | none =>
    have hno := List.find?_eq_none.mp hfind c hmem
    simp [hprim, ht] at hno
  | some d =>
    obtain ⟨k, hd⟩ := (mem_copies_iff h.consistent.indexed).mp (List.mem_of_find?_eq_some hfind)
    have hslot := List.find?_some hfind
    rw [Bool.and_eq_true, Bool.not_eq_true'] at hslot
    obtain rfl : k = n := h.primary_unique hc hd ht hslot.2 hprim hslot.1
    rw [← hd, hc]

/-- While the primary of a shard is assigned, no primary slot of it waits. -/
theorem waitingCount_eq_zero (h : v.Sound m) (hc : v.copyOn? s n = some c)
    (ht : c.isRelocationTarget = false) (hprim : c.primary = true) :
    v.waitingCount s id = 0 := by
  have hpos := assignedCount_pos (q := id) h.consistent.indexed hc ht hprim
  have hone := h.primaries s (h.knows_of_copyOn? hc)
  rw [roleCount] at hone
  omega

/-! ### Every change keeps a view sound -/

/-- A change that keeps the slots of every shard keeps a view sound. -/
theorem of_roleCount (h : v.Sound m) (hw : w.Consistent) (hshaped : w.Shaped)
    (hcount : ∀ s q, w.roleCount s q = v.roleCount s q) : w.Sound m := by
  refine ⟨hw, hshaped, fun s hs => ?_, fun s => ?_⟩
  · rw [hcount]
    exact h.primaries s hs
  · rw [slotCount_eq, hcount, ← slotCount_eq]
    exact h.room s

theorem noted (h : v.Sound m) (t : Transition) : (v.noted t).Sound m :=
  h.of_roleCount (h.consistent.noted t) (h.shaped.noted t) fun _ _ => rfl

theorem settle (h : v.Sound m) (hc : v.copyOn? c.shard n = some c) : (v.settle n c).Sound m :=
  have hstate := (h.consistent.linked _).assigned hc
  h.of_roleCount (h.consistent.settle hc) (h.shaped.settle hc hstate)
    (roleCount_settle h.consistent hc)

theorem depart (h : v.Sound m) (hc : v.copyOn? c.shard n = some c) (hs : c.state = .started)
    (hk : v.copyOn? c.shard k = none) : (v.depart n k c).Sound m := by
  have hnode : c.node ≠ some k := by
    rw [(h.consistent.own hc).2]
    intro heq
    rw [← Option.some_inj.mp heq, hc] at hk
    cases hk
  exact h.of_roleCount (h.consistent.depart hc hs hk) (h.shaped.depart hc hs hnode)
    (roleCount_depart h.consistent hc hs hk)

theorem install (h : v.Sound m) (hmem : c ∈ v.unassigned)
    (hn : v.copyOn? c.shard n = none) : (v.install n c).Sound m :=
  (h.of_roleCount (h.consistent.occupy hn) h.shaped.occupy
    (roleCount_occupy h.consistent hmem hn)).noted _

theorem forget (h : v.Sound m) (hn : ∀ s, v.copyOn? s n = none) : (v.forget n).Sound m :=
  h.of_roleCount (h.consistent.forget hn) (h.shaped.forget hn) (roleCount_forget h.consistent hn)

theorem release (h : v.Sound m) (hc : v.copyOn? c.shard n = some c) :
    (v.release n c info).Sound m :=
  h.of_roleCount (h.consistent.release hc)
    ((h.shaped.vacate.queue (Copy.Shaped.slot c info)).noted _) (roleCount_release h.consistent hc)

theorem queue (h : v.Sound m) (hs : c.state = .unassigned) (hc : c.Shaped)
    (hreplica : c.primary = false) (hroom : v.slotCount c.shard < m.capacity c.shard) :
    (v.queue c).Sound m := by
  refine ⟨h.consistent.queue hs, h.shaped.queue hc, fun s hknown => ?_, fun s => ?_⟩
  · rw [roleCount_queue, h.primaries s hknown, Copy.share, hreplica, id]
    simp
  · have hold := h.room s
    rw [slotCount_eq] at hroom hold ⊢
    rw [roleCount_queue, Copy.share, Bool.and_true]
    by_cases heq : c.shard = s
    · subst heq
      rw [beq_self_eq_true, Bool.toNat_true]
      omega
    · rw [beq_false_of_ne heq, Bool.toNat_false]
      omega

/-! ### A replica takes over -/

/-- The one primary slot is the one that waits, and the replica trades places with it. -/
theorem roleCount_takeOver_of_waiting (h : v.Sound m) (hwait : 0 < v.waitingCount s id)
    (t : ShardId) (q : Bool → Bool) : (v.takeOver s).roleCount t q = v.roleCount t q := by
  rcases takeOver_cases h.consistent s with ⟨-, heq⟩ |
    ⟨r, n, -, rfl, hr, hprim, hactive, -, heq⟩
  · rw [heq]
  · rw [heq]
    show ((v.promote n r).demoteSlots r.shard).roleCount t q = v.roleCount t q
    have hknown := h.knows_of_roleCount (Nat.lt_of_lt_of_le hwait (Nat.le_add_left _ _))
    have hone : v.waitingCount r.shard id = 1 := by
      have hprimary := h.primaries _ hknown
      rw [roleCount] at hprimary
      omega
    by_cases ht : t = r.shard
    · subst ht
      have hcount := roleCount_takeOver h.consistent hr hprim hactive q
      rw [hone] at hcount
      omega
    · exact roleCount_takeOver_of_ne h.consistent hr ht q

theorem takeOver_of_waiting (h : v.Sound m) (hwait : 0 < v.waitingCount s id) :
    (v.takeOver s).Sound m := by
  have hcount := h.roleCount_takeOver_of_waiting hwait
  rcases takeOver_cases h.consistent s with ⟨-, heq⟩ | ⟨r, n, -, rfl, hr, -, -, -, heq⟩
  · rw [heq]
    exact h
  · rw [heq] at hcount ⊢
    exact Sound.noted (h.of_roleCount ((h.consistent.promote hr).demoteSlots _)
      ((h.shaped.promote (h.consistent.linked _) hr).demoteSlots _) hcount) _

theorem surrender (h : v.Sound m) (hc : v.copyOn? c.shard n = some c)
    (hprim : c.primary = true) : (v.surrender n c info).Sound m :=
  (h.release hc).takeOver_of_waiting (waitingCount_release_pos hprim)

/-- The replicas that can take over do not depend on the primary that leaves. -/
theorem promotable_vacate (h : v.Sound m) (hc : v.copyOn? c.shard n = some c)
    (ht : c.isRelocationTarget = false) (hprim : c.primary = true) {r : Copy}
    (hr : r ∈ v.promotable c.shard) : r ∈ (v.vacate n c).promotable c.shard := by
  obtain ⟨⟨k, hk⟩, hreplica, hactive, hlive⟩ := (mem_promotable h.consistent.indexed).mp hr
  -- the node of the replica is not that of the primary, so the replica stays
  have hkn : k ≠ n := by
    rintro rfl
    rw [hc, Option.some_inj] at hk
    rw [← hk, hprim] at hreplica
    cases hreplica
  have hstill : (v.vacate n c).copyOn? c.shard k = some r := by
    rw [layout_vacate]
    exact (h.consistent.linked _).vacate_of_active hc ht hk hactive hkn
  have hlive' : r.node.any (v.vacate n c).isLive = true := by
    rw [show (v.vacate n c).isLive = v.isLive by
      funext j
      simp only [isLive, (sameFrame_vacate v n c).live]]
    exact hlive
  exact (mem_promotable (h.consistent.vacate hc).indexed).mpr
    ⟨⟨k, hstill⟩, hreplica, hactive, hlive'⟩

/-- A replica takes over from a primary that leaves. -/
theorem handOver_spec (h : v.Sound m) (hc : v.copyOn? c.shard n = some c)
    (ht : c.isRelocationTarget = false) (hprim : c.primary = true)
    (hcan : v.promotable c.shard ≠ []) :
    ∃ r k, r.shard = c.shard ∧ (v.vacate n c).copyOn? r.shard k = some r ∧
      r.primary = false ∧ r.isActive = true ∧ v.isLive k = true ∧
      v.handOver n c = (((v.vacate n c).noted (.dropped c.shard n)).promote k r
        |>.demoteSlots r.shard).noted (.promoted c.shard k) := by
  have hw : ((v.vacate n c).noted (.dropped c.shard n)).Consistent :=
    h.consistent.drop hc
  rcases takeOver_cases hw c.shard with ⟨hnone, -⟩ |
    ⟨r, k, -, hshard, hr, hreplica, hactive, hlive, heq⟩
  · -- a replica that could take over still can
    obtain ⟨r, hr⟩ := List.exists_mem_of_ne_nil _ hcan
    have hstill := h.promotable_vacate hc ht hprim hr
    have hsame : ((v.vacate n c).noted (.dropped c.shard n)).promotable c.shard =
        (v.vacate n c).promotable c.shard := rfl
    rw [← hsame, hnone] at hstill
    cases hstill
  · have hlive' : v.isLive k = true := by
      rw [isLive, ← (sameFrame_vacate v n c).live]
      exact hlive
    exact ⟨r, k, hshard, hr, hreplica, hactive, hlive', heq⟩

/-- The replica brings no slot with it: one slot of the shard is used up. -/
theorem roleCount_handOver (h : v.Sound m) (hc : v.copyOn? c.shard n = some c)
    (ht : c.isRelocationTarget = false) (hprim : c.primary = true)
    (hcan : v.promotable c.shard ≠ []) (s : ShardId) (q : Bool → Bool) :
    (v.handOver n c).roleCount s q + (c.shard == s && q false).toNat = v.roleCount s q := by
  obtain ⟨r, k, hshard, hr, hreplica, hactive, -, heq⟩ := h.handOver_spec hc ht hprim hcan
  have hw : ((v.vacate n c).noted (.dropped c.shard n)).Consistent :=
    h.consistent.drop hc
  have hvacate := roleCount_vacate h.consistent hc s q
  have hnoted : (v.handOver n c).roleCount s q =
      ((((v.vacate n c).noted (.dropped c.shard n)).promote k r).demoteSlots r.shard).roleCount
        s q := by
    rw [heq]
    rfl
  by_cases hs : s = r.shard
  · -- the primary is assigned, so no primary slot waits
    have hwait : ((v.vacate n c).noted (.dropped c.shard n)).waitingCount c.shard id = 0 := by
      show (v.vacate n c).waitingCount c.shard id = 0
      rw [waitingCount_congr (sameFrame_vacate v n c).unassigned]
      exact h.waitingCount_eq_zero hc ht hprim
    have hcount := roleCount_takeOver hw hr hreplica hactive q
    have hold : ((v.vacate n c).noted (.dropped c.shard n)).roleCount c.shard q =
        (v.vacate n c).roleCount c.shard q := rfl
    rw [hnoted, hs]
    rw [hs] at hvacate
    rw [hshard] at hcount hvacate ⊢
    rw [hwait, hold] at hcount
    rw [Copy.share, beq_self_eq_true, Bool.true_and, hprim] at hvacate
    rw [beq_self_eq_true, Bool.true_and]
    omega
  · have hcount := roleCount_takeOver_of_ne hw hr hs q
    have hold : ((v.vacate n c).noted (.dropped c.shard n)).roleCount s q =
        (v.vacate n c).roleCount s q := rfl
    have hother : (c.shard == s) = false := beq_false_of_ne fun heq => hs (hshard ▸ heq.symm)
    rw [Copy.share, hother, Bool.false_and, Bool.toNat_false] at hvacate
    rw [hnoted, hcount, hold, hother, Bool.false_and, Bool.toNat_false]
    exact hvacate

/-- No primary slot waits, so the slots that wait stay as they are. -/
theorem unassigned_handOver (h : v.Sound m) (hc : v.copyOn? c.shard n = some c)
    (ht : c.isRelocationTarget = false) (hprim : c.primary = true)
    (hcan : v.promotable c.shard ≠ []) : (v.handOver n c).unassigned = v.unassigned := by
  obtain ⟨r, k, hshard, -, -, -, -, heq⟩ := h.handOver_spec hc ht hprim hcan
  have hslots : (((v.vacate n c).noted (.dropped c.shard n)).promote k r).unassigned =
      v.unassigned :=
    (sameFrame_promote _ k r).unassigned.trans (sameFrame_vacate v n c).unassigned
  have hwait := h.waitingCount_eq_zero hc ht hprim
  rw [← hshard, ← waitingCount_congr hslots] at hwait
  rw [heq]
  exact (unassigned_demoteSlots hwait).trans hslots

theorem handOver (h : v.Sound m) (hc : v.copyOn? c.shard n = some c)
    (ht : c.isRelocationTarget = false) (hprim : c.primary = true)
    (hcan : v.promotable c.shard ≠ []) : (v.handOver n c).Sound m := by
  have hcount := h.roleCount_handOver hc ht hprim hcan
  obtain ⟨r, k, -, hr, -, -, -, heq⟩ := h.handOver_spec hc ht hprim hcan
  have hw : ((v.vacate n c).noted (.dropped c.shard n)).Consistent :=
    h.consistent.drop hc
  refine ⟨?_, ?_, fun s hs => ?_, fun s => ?_⟩
  · rw [heq]
    exact ((hw.promote hr).demoteSlots _).noted _
  · rw [heq]
    exact (((h.shaped.vacate.noted _).promote (hw.linked _) hr).demoteSlots _).noted _
  · -- the slot that is used up is none of a primary
    have hone := h.primaries s hs
    have hsame := hcount s id
    rw [id, Bool.and_false, Bool.toNat_false] at hsame
    omega
  · have hroom := h.room s
    have hless := hcount s fun _ => true
    rw [slotCount_eq] at hroom ⊢
    omega

end Sound

end View

end ShardAllocation
