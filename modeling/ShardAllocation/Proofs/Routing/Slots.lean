/-
How many slots of a role a shard has.

A shard owns one slot for each copy that is not the target of a move, assigned or not.
`roleCount` counts the slots whose role satisfies a test, so that the number of primaries
and the number of all slots are two of its values.  Recoveries and moves keep it, a copy
that leaves its node takes its slot along, and a slot that waits brings one.

* `roleCount_settle`, `roleCount_depart`, `roleCount_occupy` — the count is kept;
* `roleCount_vacate`, `roleCount_queue` — one slot less, one slot more;
* `roleCount_takeOver` — a replica that takes over trades places with the primary slot;
* `primary_unique` — where one primary is counted, one node holds it.
-/
import ShardAllocation.Proofs.Routing.Mutation

namespace ShardAllocation

namespace Copy

/-- What a slot adds to the count of a shard. -/
def share (c : Copy) (s : ShardId) (q : Bool → Bool) : Nat := (c.shard == s && q c.primary).toNat

/-- The copy is a slot of its own, and its role satisfies the test. -/
def isSlotOf (q : Bool → Bool) (c : Copy) : Bool := !c.isRelocationTarget && q c.primary

variable {c : Copy} {q : Bool → Bool}

theorem isSlotOf_of_active (h : c.isActive = true) : c.isSlotOf q = q c.primary := by
  rw [isSlotOf, isRelocationTarget_of_active h, Bool.not_false, Bool.true_and]

theorem isSlotOf_of_target (h : c.isRelocationTarget = true) : c.isSlotOf q = false := by
  rw [isSlotOf, h, Bool.not_true, Bool.false_and]

end Copy

namespace View

/-- The assigned slots of a shard whose role satisfies `q`. -/
def assignedCount (v : View) (s : ShardId) (q : Bool → Bool) : Nat :=
  (v.copies s).countP (Copy.isSlotOf q)

/-- The waiting slots of a shard whose role satisfies `q`. -/
def waitingCount (v : View) (s : ShardId) (q : Bool → Bool) : Nat :=
  v.unassigned.countP fun c => c.shard == s && q c.primary

/-- The slots of a shard whose role satisfies `q`. -/
def roleCount (v : View) (s : ShardId) (q : Bool → Bool) : Nat :=
  v.assignedCount s q + v.waitingCount s q

variable {v w : View} {s : ShardId} {n m : NodeId} {c d : Copy} {q : Bool → Bool}

theorem mem_unassignedOf : c ∈ v.unassignedOf s ↔ c ∈ v.unassigned ∧ c.shard = s := by
  simp [unassignedOf]

theorem slotCount_eq (v : View) (s : ShardId) : v.slotCount s = v.roleCount s fun _ => true := by
  have hassigned : v.assignedCount s (fun _ => true) =
      (v.copies s).countP (!·.isRelocationTarget) :=
    List.countP_congr fun c _ => by simp [Copy.isSlotOf]
  have hwaiting : v.waitingCount s (fun _ => true) = (v.unassignedOf s).length := by
    simp only [waitingCount, unassignedOf, Bool.and_true, List.countP_eq_length_filter]
  rw [slotCount, roleCount, hassigned, hwaiting]

/-! ### Assigned slots -/

theorem assignedCount_congr (hv : v.Indexed) (hw : w.Indexed) (h : w.copyOn? s = v.copyOn? s) :
    w.assignedCount s q = v.assignedCount s q := by
  rw [assignedCount, assignedCount, copies_congr hv hw h]

/-- A copy takes the place of another one on its node. -/
theorem assignedCount_replace (h : v.Indexed) (hd : v.copyOn? c.shard n = some d)
    (q : Bool → Bool) :
    (v.put n c).assignedCount c.shard q + (d.isSlotOf q).toNat =
      v.assignedCount c.shard q + (c.isSlotOf q).toNat := by
  have hcount := countP_copies_add h (h.put n c) (Copy.isSlotOf q) fun k hk =>
    copyOn?_put_elsewhere v c c.shard hk
  have hnew : (v.put n c).copyOn? c.shard n = some c := by
    rw [copyOn?_put_self, Layout.fill, if_pos rfl]
  rw [hnew, hd, Option.toList_some, Option.toList_some, List.countP_singleton,
    List.countP_singleton] at hcount
  cases hq : c.isSlotOf q <;> cases hr : d.isSlotOf q <;>
    simpa [assignedCount, hq, hr] using hcount

theorem assignedCount_put (h : v.Indexed) (hn : v.copyOn? c.shard n = none) (q : Bool → Bool) :
    (v.put n c).assignedCount c.shard q =
      v.assignedCount c.shard q + (c.isSlotOf q).toNat := by
  have hcount := countP_copies_add h (h.put n c) (Copy.isSlotOf q) fun k hk =>
    copyOn?_put_elsewhere v c c.shard hk
  have hnew : (v.put n c).copyOn? c.shard n = some c := by
    rw [copyOn?_put_self, Layout.fill, if_pos rfl]
  rw [hnew, hn, Option.toList_some, Option.toList_none, List.countP_singleton] at hcount
  cases hq : c.isSlotOf q <;> simpa [assignedCount, hq] using hcount

theorem assignedCount_take (h : v.Indexed) (hc : v.copyOn? s n = some c) (q : Bool → Bool) :
    (v.take s n).assignedCount s q + (c.isSlotOf q).toNat = v.assignedCount s q := by
  have hsame : ∀ k, k ≠ n → (v.take s n).copyOn? s k = v.copyOn? s k := fun k hk => by
    rw [copyOn?_take, if_neg (fun heq => hk heq.2)]
  have hcount := countP_copies_add h (h.take s n) (Copy.isSlotOf q) hsame
  rw [copyOn?_take, if_pos ⟨rfl, rfl⟩, hc, Option.toList_some, List.countP_singleton] at hcount
  cases hq : c.isSlotOf q <;> simpa [assignedCount, hq] using hcount

/-- Of the two halves of a move one is a slot, and a copy that stays is one. -/
theorem Consistent.withoutPeer_count (h : v.Consistent) (hc : v.copyOn? c.shard n = some c)
    (q : Bool → Bool) :
    (v.withoutPeer c).copyOn? c.shard n = some c ∧
      (v.withoutPeer c).assignedCount c.shard q + (q c.primary).toNat =
        v.assignedCount c.shard q + (c.isSlotOf q).toNat := by
  cases hp : c.peer with
  | none =>
    have htarget : c.isRelocationTarget = false := by simp [Copy.isRelocationTarget, hp]
    simp only [withoutPeer, hp, Copy.isSlotOf, htarget, Bool.not_false, Bool.true_and]
    exact ⟨hc, trivial⟩
  | some m =>
    obtain ⟨d, hd, hpd, hprim, hne⟩ := (h.linked _).exists_peer hc hp
    have hone := (h.linked _).isRelocationTarget_peer hc hp hd
    have hcount := assignedCount_take h.indexed hd q
    simp only [withoutPeer, hp]
    refine ⟨by rw [copyOn?_take, if_neg (fun heq => hne heq.2.symm), hc], ?_⟩
    -- exactly one of `c` and `d` is the target, and both have the same role
    rw [← hcount]
    cases ht : c.isRelocationTarget <;> cases hq : q c.primary <;>
      simp [Copy.isSlotOf, hone, ht, hq, hprim]

theorem assignedCount_settle (h : v.Consistent) (hc : v.copyOn? c.shard n = some c) :
    (v.settle n c).assignedCount c.shard q = v.assignedCount c.shard q := by
  obtain ⟨hstill, hpeer⟩ := h.withoutPeer_count hc q
  have hput : (v.settle n c).assignedCount c.shard q + (c.isSlotOf q).toNat =
      (v.withoutPeer c).assignedCount c.shard q + (c.settled.isSlotOf q).toNat :=
    assignedCount_replace (c := c.settled) (h.indexed.withoutPeer c) hstill q
  have hsettled : c.settled.isSlotOf q = q c.primary := by
    simp [Copy.isSlotOf, Copy.settled, Copy.isRelocationTarget]
  rw [hsettled] at hput
  omega

theorem assignedCount_vacate (h : v.Consistent) (hc : v.copyOn? c.shard n = some c) :
    (v.vacate n c).assignedCount c.shard q + (q c.primary).toNat =
      v.assignedCount c.shard q := by
  obtain ⟨hstill, hpeer⟩ := h.withoutPeer_count hc q
  have htake : (v.vacate n c).assignedCount c.shard q + (c.isSlotOf q).toNat =
      (v.withoutPeer c).assignedCount c.shard q :=
    assignedCount_take (h.indexed.withoutPeer c) hstill q
  omega

theorem assignedCount_depart (h : v.Consistent) (hc : v.copyOn? c.shard n = some c)
    (hs : c.state = .started) (hm : v.copyOn? c.shard m = none) :
    (v.depart n m c).assignedCount c.shard q = v.assignedCount c.shard q := by
  have hne : n ≠ m := fun heq => by rw [heq, hm] at hc; cases hc
  have hin : (v.put m (c.arriving m)).assignedCount c.shard q =
      v.assignedCount c.shard q + ((c.arriving m).isSlotOf q).toNat :=
    assignedCount_put (c := c.arriving m) h.indexed hm q
  have hstill : (v.put m (c.arriving m)).copyOn? c.shard n = some c :=
    (copyOn?_put_elsewhere v _ _ hne).trans hc
  have hout : (v.depart n m c).assignedCount c.shard q + (c.isSlotOf q).toNat =
      (v.put m (c.arriving m)).assignedCount c.shard q + ((c.departing m).isSlotOf q).toNat :=
    assignedCount_replace (c := c.departing m) (h.indexed.put m (c.arriving m)) hstill q
  -- the target is no slot, and the copy on its way is one as before
  have harriving : (c.arriving m).isSlotOf q = false := by
    simp [Copy.isSlotOf, Copy.arriving, Copy.isRelocationTarget, Copy.isInitializing,
      (h.own hc).2]
  have hdeparting : (c.departing m).isSlotOf q = c.isSlotOf q := by
    rw [Copy.isSlotOf_of_active rfl,
      Copy.isSlotOf_of_active (Copy.isActive_iff.mpr (.inl hs)), Copy.departing]
  rw [harriving, Bool.toNat_false] at hin
  rw [hdeparting] at hout
  omega

theorem assignedCount_promote (h : v.Consistent) (hc : v.copyOn? c.shard n = some c)
    (hprim : c.primary = false) (hactive : c.isActive = true) :
    (v.promote n c).assignedCount c.shard q + (q false).toNat =
      v.assignedCount c.shard q + (q true).toNat := by
  have hraised : c.asPrimary.isSlotOf q = q true := Copy.isSlotOf_of_active hactive
  have hfirst : (v.put n c.asPrimary).assignedCount c.shard q + (c.isSlotOf q).toNat =
      v.assignedCount c.shard q + (c.asPrimary.isSlotOf q).toNat :=
    assignedCount_replace (c := c.asPrimary) h.indexed hc q
  rw [Copy.isSlotOf_of_active hactive, hprim, hraised] at hfirst
  cases hp : c.peer with
  | none =>
    rw [promote, hp]
    exact hfirst
  | some m =>
    obtain ⟨t, ht, -, -, hne⟩ := (h.linked _).exists_peer hc hp
    have htshard : t.asPrimary.shard = c.shard := (h.own ht).1
    have hstill : (v.put n c.asPrimary).copyOn? t.asPrimary.shard m = some t := by
      rw [htshard, copyOn?_put_elsewhere v _ _ hne, ht]
    have hsecond := assignedCount_replace (h.indexed.put n c.asPrimary) hstill q
    -- the other half of the move is a target, and no slot before or after
    have htarget : t.isRelocationTarget = true := by
      rw [(h.linked _).isRelocationTarget_peer hc hp ht, Copy.isRelocationTarget_of_active hactive]
      rfl
    have hother : t.asPrimary.isSlotOf q = false := Copy.isSlotOf_of_target htarget
    rw [Copy.isSlotOf_of_target htarget, hother, htshard] at hsecond
    rw [promote, hp]
    simp only [ht]
    omega

theorem assignedCount_occupy (h : v.Consistent) (hn : v.copyOn? c.shard n = none) :
    (v.occupy n c).assignedCount c.shard q =
      v.assignedCount c.shard q + (q c.primary).toNat := by
  have hput : (v.occupy n c).assignedCount c.shard q =
      v.assignedCount c.shard q + ((c.placedOn n).isSlotOf q).toNat :=
    assignedCount_put (c := c.placedOn n) h.indexed hn q
  have hslot : (c.placedOn n).isSlotOf q = q c.primary := by
    simp [Copy.isSlotOf, Copy.placedOn, Copy.isRelocationTarget]
  rw [hput, hslot]

/-! ### Waiting slots -/

theorem waitingCount_congr (h : w.unassigned = v.unassigned) :
    w.waitingCount s q = v.waitingCount s q := by
  rw [waitingCount, waitingCount, h]

theorem waitingCount_queue (v : View) (slot : Copy) (s : ShardId) (q : Bool → Bool) :
    (v.queue slot).waitingCount s q = v.waitingCount s q + slot.share s q := by
  simp only [waitingCount, queue, Copy.share, List.countP_append, List.countP_singleton]
  cases slot.shard == s && q slot.primary <;> rfl

theorem waitingCount_occupy (hmem : c ∈ v.unassigned) (s : ShardId) (q : Bool → Bool) :
    (v.occupy n c).waitingCount s q + c.share s q = v.waitingCount s q := by
  have hcount := (List.perm_cons_erase hmem).countP_eq fun d => d.shard == s && q d.primary
  rw [List.countP_cons] at hcount
  simp only [waitingCount, occupy, Copy.share, hcount]
  cases c.shard == s && q c.primary <;> rfl

/-- Every primary slot of the shard becomes a replica slot. -/
theorem waitingCount_demoteSlots (v : View) (s : ShardId) (q : Bool → Bool) :
    (v.demoteSlots s).waitingCount s q + v.waitingCount s id * (q true).toNat =
      v.waitingCount s q + v.waitingCount s id * (q false).toNat := by
  simp only [waitingCount, demoteSlots]
  induction v.unassigned with
  | nil => simp
  | cons c rest ih =>
    simp only [List.map_cons, List.countP_cons, id]
    cases hs : c.shard == s with
    | false => simpa [hs] using ih
    | true =>
      cases hp : c.primary <;> cases ht : q true <;> cases hf : q false <;>
        simp [hs, hp, ht, hf, Copy.demote] at ih ⊢ <;> omega

/-- Where no primary slot of the shard waits, there is none to become a replica slot. -/
theorem unassigned_demoteSlots (h : v.waitingCount s id = 0) :
    (v.demoteSlots s).unassigned = v.unassigned := by
  have hnone : ∀ c ∈ v.unassigned, ¬(c.shard == s && c.primary) = true :=
    List.countP_eq_zero.mp h
  rw [demoteSlots, List.map_congr_left fun c hc => if_neg (hnone c hc), List.map_id']

theorem waitingCount_demoteSlots_of_ne {t : ShardId} (h : t ≠ s) (q : Bool → Bool) :
    (v.demoteSlots s).waitingCount t q = v.waitingCount t q := by
  simp only [waitingCount, demoteSlots, List.countP_map]
  refine List.countP_congr fun c _ => ?_
  simp only [Function.comp_apply]
  by_cases hs : (c.shard == s && c.primary) = true
  · have hshard : c.shard = s := by simpa using (Bool.and_eq_true_iff.mp hs).1
    have hts : (s == t) = false := by simpa using h.symm
    rw [if_pos hs]
    simp [Copy.demote, hshard, hts]
  · rw [if_neg hs]

/-! ### All slots -/

theorem roleCount_congr (hv : v.Indexed) (hw : w.Indexed)
    (hlayout : w.copyOn? s = v.copyOn? s) (hframe : w.unassigned = v.unassigned) :
    w.roleCount s q = v.roleCount s q := by
  rw [roleCount, roleCount, assignedCount_congr hv hw hlayout, waitingCount_congr hframe]

/-- A copy that appears on an empty node brings its slot, if it is one. -/
theorem roleCount_put (h : v.Indexed) (hn : v.copyOn? c.shard n = none) (s : ShardId)
    (q : Bool → Bool) :
    (v.put n c).roleCount s q = v.roleCount s q + (c.shard == s && c.isSlotOf q).toNat := by
  have hwait : (v.put n c).waitingCount s q = v.waitingCount s q := rfl
  rw [roleCount, roleCount, hwait]
  by_cases hs : s = c.shard
  · subst hs
    have hput := assignedCount_put h hn q
    rw [beq_self_eq_true, Bool.true_and]
    omega
  · have hsame := assignedCount_congr (q := q) h (h.put n c) (copyOn?_put_of_ne hs)
    rw [beq_false_of_ne (Ne.symm hs), Bool.false_and, Bool.toNat_false]
    omega

theorem roleCount_settle (h : v.Consistent) (hc : v.copyOn? c.shard n = some c) (s : ShardId)
    (q : Bool → Bool) : (v.settle n c).roleCount s q = v.roleCount s q := by
  have hw := h.settle hc
  have hframe := (sameFrame_settle v n c).unassigned
  by_cases hs : s = c.shard
  · subst hs
    rw [roleCount, roleCount, assignedCount_settle h hc, waitingCount_congr hframe]
  · exact roleCount_congr h.indexed hw.indexed (copyOn?_settle_of_ne hs) hframe

theorem roleCount_depart (h : v.Consistent) (hc : v.copyOn? c.shard n = some c)
    (hstate : c.state = .started) (hm : v.copyOn? c.shard m = none) (s : ShardId)
    (q : Bool → Bool) : (v.depart n m c).roleCount s q = v.roleCount s q := by
  have hw := h.depart hc hstate hm
  have hframe := (sameFrame_depart v n m c).unassigned
  by_cases hs : s = c.shard
  · subst hs
    rw [roleCount, roleCount, assignedCount_depart h hc hstate hm, waitingCount_congr hframe]
  · exact roleCount_congr h.indexed hw.indexed (copyOn?_depart_of_ne hs) hframe

theorem roleCount_vacate (h : v.Consistent) (hc : v.copyOn? c.shard n = some c) (s : ShardId)
    (q : Bool → Bool) : (v.vacate n c).roleCount s q + c.share s q = v.roleCount s q := by
  have hw := h.vacate hc
  have hframe := (sameFrame_vacate v n c).unassigned
  by_cases hs : s = c.shard
  · subst hs
    have hcount := assignedCount_vacate (q := q) h hc
    have hwait := waitingCount_congr (s := c.shard) (q := q) hframe
    simp only [roleCount, Copy.share, beq_self_eq_true, Bool.true_and]
    omega
  · have hother : (c.shard == s) = false := by simpa using Ne.symm hs
    have hcount := roleCount_congr (q := q) h.indexed hw.indexed (copyOn?_vacate_of_ne hs) hframe
    simpa [Copy.share, hother] using hcount

theorem roleCount_queue (v : View) (slot : Copy) (s : ShardId) (q : Bool → Bool) :
    (v.queue slot).roleCount s q = v.roleCount s q + slot.share s q := by
  have hassigned : (v.queue slot).assignedCount s q = v.assignedCount s q := rfl
  rw [roleCount, roleCount, hassigned, waitingCount_queue]
  omega

theorem roleCount_occupy (h : v.Consistent) (hmem : c ∈ v.unassigned)
    (hn : v.copyOn? c.shard n = none) (s : ShardId) (q : Bool → Bool) :
    (v.occupy n c).roleCount s q = v.roleCount s q := by
  have hw := h.occupy hn
  have hwait := waitingCount_occupy (n := n) hmem s q
  simp only [roleCount]
  by_cases hs : s = c.shard
  · subst hs
    have hcount := assignedCount_occupy (q := q) h hn
    simp only [Copy.share, beq_self_eq_true, Bool.true_and] at hwait
    omega
  · have hother : (c.shard == s) = false := by simpa using Ne.symm hs
    have hcount := assignedCount_congr (q := q) h.indexed hw.indexed (copyOn?_occupy_of_ne hs)
    simp only [Copy.share, hother, Bool.false_and, Bool.toNat_false] at hwait
    omega

theorem roleCount_forget (h : v.Consistent) (hn : ∀ s, v.copyOn? s n = none) (s : ShardId)
    (q : Bool → Bool) : (v.forget n).roleCount s q = v.roleCount s q :=
  roleCount_congr h.indexed (h.forget hn).indexed (copyOn?_forget_of_empty hn s) rfl

/-- A replica takes over: it becomes the primary, and the primary slots that wait become
replica slots. -/
theorem roleCount_takeOver (h : v.Consistent) (hc : v.copyOn? c.shard n = some c)
    (hprim : c.primary = false) (hactive : c.isActive = true) (q : Bool → Bool) :
    ((v.promote n c).demoteSlots c.shard).roleCount c.shard q + (q false).toNat +
        v.waitingCount c.shard id * (q true).toNat =
      v.roleCount c.shard q + (q true).toNat + v.waitingCount c.shard id * (q false).toNat := by
  have hframe := (sameFrame_promote v n c).unassigned
  have hassigned : ((v.promote n c).demoteSlots c.shard).assignedCount c.shard q =
      (v.promote n c).assignedCount c.shard q := rfl
  have hcount := assignedCount_promote (q := q) h hc hprim hactive
  have hdemote := waitingCount_demoteSlots (v.promote n c) c.shard q
  rw [waitingCount_congr hframe, waitingCount_congr hframe] at hdemote
  rw [roleCount, roleCount, hassigned]
  omega

theorem roleCount_takeOver_of_ne (h : v.Consistent) (hc : v.copyOn? c.shard n = some c)
    (hs : s ≠ c.shard) (q : Bool → Bool) :
    ((v.promote n c).demoteSlots c.shard).roleCount s q = v.roleCount s q := by
  have hw := h.promote hc
  have hframe := (sameFrame_promote v n c).unassigned
  have hassigned : ((v.promote n c).demoteSlots c.shard).assignedCount s q =
      (v.promote n c).assignedCount s q := rfl
  rw [roleCount, roleCount, hassigned, waitingCount_demoteSlots_of_ne hs,
    waitingCount_congr hframe,
    assignedCount_congr h.indexed hw.indexed (copyOn?_promote_of_ne (h.linked _) hs)]

/-! ### The primary of a shard -/

/-- A slot on a node is counted. -/
theorem assignedCount_pos (h : v.Indexed) (hc : v.copyOn? s n = some c)
    (ht : c.isRelocationTarget = false) (hq : q c.primary = true) : 0 < v.assignedCount s q :=
  List.countP_pos_iff.mpr ⟨c, (mem_copies_iff h).mpr ⟨n, hc⟩, by simp [Copy.isSlotOf, ht, hq]⟩

theorem waitingCount_pos (hc : c ∈ v.unassigned) (hq : q c.primary = true) :
    0 < v.waitingCount c.shard q :=
  List.countP_pos_iff.mpr ⟨c, hc, by simp [hq]⟩

/-- A shard without an assigned primary slot has no primary. -/
theorem primary?_eq_none (hcount : v.assignedCount s id = 0) : v.primary? s = none := by
  refine List.find?_eq_none.mpr fun c hc hprim => ?_
  have hpos : 0 < v.assignedCount s id := by
    refine List.countP_pos_iff.mpr ⟨c, hc, ?_⟩
    rw [Bool.and_eq_true, Bool.not_eq_true'] at hprim
    simp [Copy.isSlotOf, hprim.1, hprim.2]
  omega

/-- The primary slot of a shard with one primary is on one node only. -/
theorem primary_unique (h : v.Indexed) (hone : v.roleCount s id = 1)
    (hc : v.copyOn? s n = some c) (hd : v.copyOn? s m = some d)
    (htc : c.isRelocationTarget = false) (htd : d.isRelocationTarget = false)
    (hpc : c.primary = true) (hpd : d.primary = true) : m = n := by
  by_contra hne
  have htwo : 2 ≤ v.assignedCount s id :=
    two_le_countP_copies h hc hd hne (by simp [Copy.isSlotOf, htc, hpc])
      (by simp [Copy.isSlotOf, htd, hpd])
  simp only [roleCount] at hone
  omega

end View

end ShardAllocation
