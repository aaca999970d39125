/-
What remains of a shard once the departed nodes are gone.

Whatever the order in which nodes and copies are taken, what the reconciliation leaves of a
shard can be read off the view before: `View.remains` gives the copies that stay, each on its
node.  A move to a departed node is undone, and a copy on a departed node goes with the
target of its move; a replica that is being filled goes with the node of its primary.

* `remains_settle`, `remains_vacate` — a change of the reconciliation leaves all this as it was;
* `remains_promote` — a replica that takes over remains, as the primary;
* `hasLiveReplica_iff_remains` — the replicas that can take over are among what remains.
-/
import ShardAllocation.Proofs.Pass.Departure

namespace ShardAllocation

namespace Copy

/-- What is left of a copy on a member once the departed nodes are gone; `left` says that the
node of its primary is one of them. -/
def remainder (live : NodeId → Bool) (left : Bool) (c : Copy) : Option Copy :=
  match c.peer with
  | some k => if live k then some c else if c.isRelocating then some c.settled else none
  | none => if View.isRecoveringReplica c && left then none else some c

variable {live : NodeId → Bool} {left left' : Bool} {c d : Copy} {k : NodeId}

/-- Whether the primary's node left matters only to a replica that is being filled. -/
theorem remainder_congr (h : View.isRecoveringReplica c = true → left' = left) :
    c.remainder live left' = c.remainder live left := by
  unfold remainder
  cases hrec : View.isRecoveringReplica c with
  | true => rw [h hrec]
  | false => simp only [Bool.false_and]

/-- A copy loses no more than its move. -/
theorem eq_or_of_remainder (h : c.remainder live left = some d) :
    d = c ∨ (d = c.settled ∧ c.state = .relocating ∧ ∃ k, c.peer = some k ∧ live k = false) := by
  unfold remainder at h
  split at h
  next k hp =>
    split at h
    next => exact .inl (Option.some_inj.mp h).symm
    next hk =>
      split at h
      next hrel =>
        exact .inr ⟨(Option.some_inj.mp h).symm, by simpa [isRelocating] using hrel, k, hp,
          Bool.not_eq_true _ ▸ hk⟩
      next => cases h
  next =>
    split at h
    next => cases h
    next => exact .inl (Option.some_inj.mp h).symm

theorem primary_of_remainder (h : c.remainder live left = some d) : d.primary = c.primary := by
  rcases eq_or_of_remainder h with rfl | ⟨rfl, -⟩ <;> rfl

theorem isActive_of_remainder (h : c.remainder live left = some d) :
    d.isActive = c.isActive := by
  rcases eq_or_of_remainder h with rfl | ⟨rfl, hrel, -⟩
  · rfl
  · rw [isActive_iff.mpr (.inr hrel), isActive_iff.mpr (.inl rfl)]

theorem isRelocationTarget_of_remainder (h : c.remainder live left = some d) :
    d.isRelocationTarget = c.isRelocationTarget := by
  rcases eq_or_of_remainder h with rfl | ⟨rfl, hrel, -⟩
  · rfl
  · rw [isRelocationTarget_of_active (isActive_iff.mpr (.inr hrel))]
    rfl

/-- A copy whose move is called back is started. -/
theorem remainder_of_relocating (hrel : c.state = .relocating) (hp : c.peer = some k)
    (hk : live k = false) : c.remainder live left = some c.settled := by
  simp [remainder, hp, hk, isRelocating, hrel]

/-- A copy stays as it is if the other end of its move does, and the source that it is filled
from. -/
theorem remainder_eq_self (hpeer : ∀ k, c.peer = some k → live k = true)
    (hleft : View.isRecoveringReplica c = true → left = false) :
    c.remainder live left = some c := by
  unfold remainder
  cases hp : c.peer with
  | some k => simp [hpeer k hp]
  | none =>
    cases hrec : View.isRecoveringReplica c with
    | true => simp [hleft hrec]
    | false => simp

theorem remainder_settled : c.settled.remainder live left = some c.settled := by
  simp [remainder, settled, View.isRecoveringReplica, isInitializing]

/-- Nothing remains of a target whose source is on a node that left. -/
theorem remainder_of_target (hinit : c.state = .initializing) (hp : c.peer = some k)
    (hk : live k = false) : c.remainder live left = none := by
  simp [remainder, hp, hk, isRelocating, hinit]

/-- A copy that is complete remains. -/
theorem exists_remainder (live : NodeId → Bool) (left : Bool) (h : c.isActive = true)
    (hpeer : c.peer.isSome → c.state = .relocating) :
    ∃ d, c.remainder live left = some d := by
  by_cases hstays : ∀ k, c.peer = some k → live k = true
  · refine ⟨c, remainder_eq_self hstays fun hrec => ?_⟩
    rw [View.not_recovering_of_active h] at hrec
    cases hrec
  · simp only [not_forall, Bool.not_eq_true] at hstays
    obtain ⟨k, hp, hk⟩ := hstays
    exact ⟨_, remainder_of_relocating (hpeer (by rw [hp]; rfl)) hp hk⟩

theorem remainder_asPrimary :
    c.asPrimary.remainder live false = (c.remainder live false).map asPrimary := by
  simp only [remainder, Bool.and_false]
  cases hp : c.peer with
  | none => simp [asPrimary, hp]
  | some k =>
    simp only [show c.asPrimary.peer = some k from hp,
      show c.asPrimary.isRelocating = c.isRelocating from rfl]
    split
    · rfl
    · split <;> rfl

end Copy

namespace View

open Pass (hasLiveReplica)

/-- The copies of a shard that remain once the departed nodes are gone. -/
def remains (v : View) (s : ShardId) : Layout := fun k =>
  if v.isLive k then (v.copyOn? s k).bind (Copy.remainder v.isLive (v.primaryLeft s)) else none

variable {v w : View} {s : ShardId} {n k : NodeId} {c d r : Copy} {m : Metadata}

theorem remains_eq_some : v.remains s k = some d ↔
    v.isLive k = true ∧ ∃ c, v.copyOn? s k = some c ∧
      c.remainder v.isLive (v.primaryLeft s) = some d := by
  unfold remains
  split
  next hk => simp [hk, Option.bind_eq_some_iff]
  next hk => simp [hk]

/-- What remains of a copy has its role, and is complete if it was. -/
theorem of_remains (hc : v.copyOn? s k = some c) (hd : v.remains s k = some d) :
    d.primary = c.primary ∧ d.isActive = c.isActive := by
  obtain ⟨-, e, he, hrem⟩ := remains_eq_some.mp hd
  obtain rfl : c = e := Option.some_inj.mp (hc.symm.trans he)
  exact ⟨Copy.primary_of_remainder hrem, Copy.isActive_of_remainder hrem⟩

theorem remains_of_not_isLive (hk : v.isLive k = false) : v.remains s k = none := by
  simp [remains, hk]

/-- Nothing remains of a replica that was being filled from a primary on a departed node. -/
theorem remains_of_recovering (hc : v.copyOn? s n = some c)
    (hrec : isRecoveringReplica c = true) (hleft : v.primaryLeft s = true) :
    v.remains s n = none := by
  simp [remains, hc, Copy.remainder, peer_of_recovering hrec, hrec, hleft]

theorem primaryLeft_of_isLive (h : v.Consistent)
    (hlive : ∀ k c, v.copyOn? s k = some c → v.isLive k = true) : v.primaryLeft s = false := by
  rw [Bool.eq_false_iff, ne_eq, primaryLeft_iff h]
  rintro ⟨n, c, hc, -, -, hn⟩
  rw [hlive n c hc] at hn
  cases hn

/-- A shard on members only remains as it is. -/
theorem remains_of_isLive (h : v.Consistent)
    (hlive : ∀ k c, v.copyOn? s k = some c → v.isLive k = true) : v.remains s = v.copyOn? s := by
  funext k
  cases hc : v.copyOn? s k with
  | none => simp [remains, hc]
  | some c =>
    refine remains_eq_some.mpr ⟨hlive k c hc, c, hc, Copy.remainder_eq_self (fun j hp => ?_)
      fun _ => primaryLeft_of_isLive h hlive⟩
    obtain ⟨d, hd, -⟩ := (h.linked s).exists_peer hc hp
    exact hlive j d hd

/-- Where a node holds what it held, the same remains, unless it is a replica that is being
filled. -/
theorem remains_congr (hlive : w.live = v.live) (hk : w.copyOn? s k = v.copyOn? s k)
    (hleft : ∀ c, v.copyOn? s k = some c → isRecoveringReplica c = true →
      w.primaryLeft s = v.primaryLeft s) : w.remains s k = v.remains s k := by
  have hisLive : w.isLive = v.isLive := funext fun j => by rw [isLive, hlive, isLive]
  unfold remains
  rw [hisLive, hk]
  split
  next =>
    cases hc : v.copyOn? s k with
    | none => rfl
    | some c => exact Copy.remainder_congr (hleft c hc)
  next => rfl

/-- A copy that is complete remains on a member. -/
theorem exists_remains (h : v.Consistent) (hc : v.copyOn? s n = some c)
    (hactive : c.isActive = true) (hn : v.isLive n = true) : ∃ d, v.remains s n = some d := by
  obtain ⟨d, hd⟩ := Copy.exists_remainder v.isLive (v.primaryLeft s) hactive
    fun hsome => by
      obtain ⟨j, hj⟩ := Option.isSome_iff_exists.mp hsome
      exact (h.linked s).state_of_peer hc hj (Copy.isRelocationTarget_of_active hactive)
  exact ⟨d, remains_eq_some.mpr ⟨hn, c, hc, hd⟩⟩

/-- The replicas that can take over remain, and only they. -/
theorem hasLiveReplica_iff_remains (h : v.Consistent) : hasLiveReplica v s = true ↔
    ∃ k c, v.remains s k = some c ∧ c.primary = false ∧ c.isActive = true := by
  rw [hasLiveReplica_iff h.indexed]
  constructor
  · intro hcan
    obtain ⟨r, hr⟩ := List.exists_mem_of_ne_nil _ hcan
    obtain ⟨⟨k, hk⟩, hprim, hactive, hlive⟩ := (mem_promotable h.indexed).mp hr
    rw [(h.own hk).2, Option.any_some] at hlive
    obtain ⟨d, hd⟩ := exists_remains h hk hactive hlive
    obtain ⟨hdprim, hdactive⟩ := of_remains hk hd
    exact ⟨k, d, hd, hdprim.trans hprim, hdactive.trans hactive⟩
  · rintro ⟨k, d, hd, hprim, hactive⟩
    obtain ⟨hlive, c, hc, -⟩ := remains_eq_some.mp hd
    obtain ⟨hdprim, hdactive⟩ := of_remains hc hd
    rw [hdprim] at hprim
    rw [hdactive] at hactive
    refine List.ne_nil_of_mem ((mem_promotable h.indexed).mpr ⟨⟨k, hc⟩, hprim, hactive, ?_⟩)
    rw [(h.own hc).2, Option.any_some, hlive]

theorem hasLiveReplica_congr (hv : v.Consistent) (hw : w.Consistent)
    (h : w.remains s = v.remains s) : hasLiveReplica w s = hasLiveReplica v s := by
  rw [Bool.eq_iff_iff, hasLiveReplica_iff_remains hw, hasLiveReplica_iff_remains hv, h]

/-! ### What the changes leave alone -/

/-- The primary of a shard is on a node that left, before and after, if the copies there that
are no targets are the same. -/
theorem primaryLeft_congr (hv : v.Consistent) (hw : w.Consistent) (hlive : w.live = v.live)
    (h : ∀ k d, v.isLive k = false → d.primary = true → d.isRelocationTarget = false →
      (w.copyOn? s k = some d ↔ v.copyOn? s k = some d)) :
    w.primaryLeft s = v.primaryLeft s := by
  have hisLive : w.isLive = v.isLive := funext fun j => by rw [isLive, hlive, isLive]
  rw [Bool.eq_iff_iff, primaryLeft_iff hw, primaryLeft_iff hv, hisLive]
  constructor
  · rintro ⟨k, d, hd, hprim, ht, hk⟩
    exact ⟨k, d, (h k d hk hprim ht).mp hd, hprim, ht, hk⟩
  · rintro ⟨k, d, hd, hprim, ht, hk⟩
    exact ⟨k, d, (h k d hk hprim ht).mpr hd, hprim, ht, hk⟩

theorem primaryLeft_settle (h : v.Consistent) (hc : v.copyOn? c.shard n = some c)
    (ht : c.isRelocationTarget = false) (hn : v.isLive n = true) :
    (v.settle n c).primaryLeft c.shard = v.primaryLeft c.shard := by
  refine primaryLeft_congr h (h.settle hc) (sameFrame_settle v n c).live fun k d hk _ htd => ?_
  have hkn : k ≠ n := by
    rintro rfl
    rw [hn] at hk
    cases hk
  rw [layout_settle, Layout.settle_eq_some]
  constructor
  · rintro (⟨heq, -⟩ | ⟨-, -, hd⟩)
    · exact absurd heq hkn
    · exact hd
  · exact fun hd => .inr ⟨hkn, (h.linked _).peer_ne hc ht hd htd, hd⟩

/-- The copy whose move is called back remains as it is then. -/
theorem remains_settle (h : v.Consistent) (hc : v.copyOn? c.shard n = some c)
    (hrel : c.state = .relocating) (hn : v.isLive n = true) (hp : c.peer = some k)
    (hk : v.isLive k = false) :
    (v.settle n c).remains c.shard = v.remains c.shard ∧
      v.remains c.shard n = some c.settled := by
  have hlive := (sameFrame_settle v n c).live
  have ht := Copy.isRelocationTarget_of_active (Copy.isActive_iff.mpr (.inr hrel))
  have hleft := primaryLeft_settle h hc ht hn
  have hself : v.remains c.shard n = some c.settled :=
    remains_eq_some.mpr ⟨hn, c, hc, Copy.remainder_of_relocating hrel hp hk⟩
  refine ⟨funext fun j => ?_, hself⟩
  by_cases hj : j = n
  · subst hj
    rw [hself, remains_eq_some]
    refine ⟨by rw [isLive, hlive]; exact hn, c.settled, ?_, Copy.remainder_settled⟩
    rw [layout_settle, Layout.settle, if_pos rfl]
  · by_cases hjk : c.peer = some j
    · obtain rfl : k = j := Option.some_inj.mp (hp.symm.trans hjk)
      rw [remains_of_not_isLive hk, remains_of_not_isLive (by rw [isLive, hlive]; exact hk)]
    · refine remains_congr hlive ?_ fun _ _ _ => hleft
      rw [layout_settle, Layout.settle, if_neg hj, if_neg hjk]

/-- A copy that moves goes only with its node. -/
theorem isLive_of_gone (h : v.Consistent) (hc : v.copyOn? s n = some c)
    (ht : c.isRelocationTarget = false) (hp : c.peer = some k) (hgone : v.remains s n = none) :
    v.isLive n = false := by
  by_contra hn
  have hrel := (h.linked s).state_of_peer hc hp ht
  obtain ⟨d, hd⟩ := exists_remains h hc (Copy.isActive_iff.mpr (.inr hrel))
    (Bool.not_eq_false _ ▸ hn)
  rw [hgone] at hd
  cases hd

/-- Where a copy goes of which nothing remains, the same remains of the others, if it does not
matter to replicas that are being filled. -/
theorem remains_vacate (h : v.Consistent) (hc : v.copyOn? c.shard n = some c)
    (ht : c.isRelocationTarget = false) (hgone : v.remains c.shard n = none)
    (hleft : ∀ k d, v.copyOn? c.shard k = some d → isRecoveringReplica d = true →
      (v.vacate n c).primaryLeft c.shard = v.primaryLeft c.shard) :
    (v.vacate n c).remains c.shard = v.remains c.shard := by
  have hlive := (sameFrame_vacate v n c).live
  have hempty : ∀ j, j = n ∨ c.peer = some j → (v.vacate n c).remains c.shard j = none :=
    fun j hj => by simp [remains, copyOn?_vacate_eq_none hj]
  funext j
  by_cases hj : j = n
  · rw [hempty j (.inl hj), hj, hgone]
  · by_cases hp : c.peer = some j
    · rw [hempty j (.inr hp)]
      -- the copy moves, so it goes because its node left, and the target goes with it
      have hn : v.isLive n = false := isLive_of_gone h hc ht hp hgone
      obtain ⟨e, he, hpe, -, -⟩ := (h.linked _).exists_peer hc hp
      have hte : e.isRelocationTarget = true := by
        rw [(h.linked _).isRelocationTarget_peer hc hp he, ht]
        rfl
      have hinit := (Copy.isRelocationTarget_iff.mp hte).1
      simp only [remains, he, Option.bind_some, Copy.remainder_of_target hinit hpe hn, ite_self]
    · refine remains_congr hlive ?_ fun d hd => hleft j d hd
      rw [layout_vacate, Layout.vacate, if_neg hj, if_neg hp]

/-- No primary is left on a departed node once the primary is gone. -/
theorem primaryLeft_vacate_of_primary (h : v.Sound m) (hc : v.copyOn? c.shard n = some c)
    (ht : c.isRelocationTarget = false) (hprim : c.primary = true) :
    (v.vacate n c).primaryLeft c.shard = false := by
  rw [Bool.eq_false_iff, ne_eq, primaryLeft_iff (h.consistent.vacate hc)]
  rintro ⟨k, d, hd, hdprim, hdt, -⟩
  rw [layout_vacate] at hd
  obtain ⟨hkn, -, hd⟩ := Layout.vacate_eq_some.mp hd
  exact hkn (h.primary_unique hc hd ht hdt hprim hdprim)

theorem primaryLeft_vacate_of_replica (h : v.Consistent) (hc : v.copyOn? c.shard n = some c)
    (ht : c.isRelocationTarget = false) (hprim : c.primary = false) :
    (v.vacate n c).primaryLeft c.shard = v.primaryLeft c.shard := by
  refine primaryLeft_congr h (h.vacate hc) (sameFrame_vacate v n c).live fun k d _ hdprim htd => ?_
  rw [layout_vacate, Layout.vacate_eq_some]
  constructor
  · exact fun hd => hd.2.2
  · intro hd
    have hkn : k ≠ n := by
      rintro rfl
      rw [hc, Option.some_inj] at hd
      rw [hd, hdprim] at hprim
      cases hprim
    exact ⟨hkn, h.linked _ |>.peer_ne hc ht hd htd, hd⟩

theorem primaryLeft_promote (h : v.Consistent) (hr : v.copyOn? r.shard k = some r)
    (hactive : r.isActive = true) (hk : v.isLive k = true) :
    (v.promote k r).primaryLeft r.shard = v.primaryLeft r.shard := by
  have ht := Copy.isRelocationTarget_of_active hactive
  refine primaryLeft_congr h (h.promote hr) (sameFrame_promote v k r).live fun j d hj _ hdt => ?_
  have hjk : j ≠ k := by
    rintro rfl
    rw [hk] at hj
    cases hj
  rw [layout_promote (h.linked _) hr, Layout.promote_eq_some]
  constructor
  · rintro ⟨e, he, rfl⟩
    have het : e.isRelocationTarget = false := by split at hdt <;> exact hdt
    rw [if_neg (not_or.mpr ⟨hjk, (h.linked _).peer_ne hr ht he het⟩)]
    exact he
  · intro hd
    exact ⟨d, hd, by rw [if_neg (not_or.mpr ⟨hjk, (h.linked _).peer_ne hr ht hd hdt⟩)]⟩

/-- What remains after a replica took over are the same copies, in their new roles. -/
theorem remains_promote (h : v.Consistent) (hr : v.copyOn? r.shard k = some r)
    (hactive : r.isActive = true) (hk : v.isLive k = true)
    (hleft : v.primaryLeft r.shard = false) :
    (v.promote k r).remains r.shard = Layout.promote (v.remains r.shard) k r := by
  have hisLive : (v.promote k r).isLive = v.isLive := by
    funext j
    simp only [isLive, (sameFrame_promote v k r).live]
  funext j
  simp only [remains, hisLive, primaryLeft_promote h hr hactive hk, hleft,
    layout_promote (h.linked _) hr, Layout.promote]
  split
  next hj =>
    split
    next => cases v.copyOn? r.shard j with
      | none => rfl
      | some e => exact Copy.remainder_asPrimary
    next => rfl
  next => simp

/-- To raise a replica is to raise what remains of it: the target of its move remains only
with the move. -/
theorem exists_promote_remains (h : v.Consistent) (hr : v.copyOn? s k = some r)
    (hactive : r.isActive = true) (hk : v.isLive k = true) :
    ∃ d, v.remains s k = some d ∧ d.primary = r.primary ∧ d.isActive = true ∧
      Layout.promote (v.remains s) k r = Layout.promote (v.remains s) k d := by
  obtain ⟨d, hd⟩ := exists_remains h hr hactive hk
  obtain ⟨hprim, hdactive⟩ := of_remains hr hd
  refine ⟨d, hd, hprim, hdactive.trans hactive, ?_⟩
  obtain ⟨-, e, he, hrem⟩ := remains_eq_some.mp hd
  obtain rfl : r = e := Option.some_inj.mp (hr.symm.trans he)
  rcases Copy.eq_or_of_remainder hrem with rfl | ⟨rfl, -, j, hp, hj⟩
  · rfl
  · funext i
    by_cases hi : i = k
    · simp [Layout.promote, hi]
    · by_cases hij : i = j
      · subst hij
        simp [Layout.promote, remains_of_not_isLive hj]
      · have hpi : r.peer ≠ some i := fun heq => hij (Option.some_inj.mp (heq.symm.trans hp))
        simp [Layout.promote, hi, hpi, Copy.settled]

end View

end ShardAllocation
