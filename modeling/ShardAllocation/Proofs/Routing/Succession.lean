/-
Which replica takes over.

Replicas that can take over are listed in the order of their nodes, so the first one that is
found is the one on the node with the smallest name: among the started replicas if there are any,
else among those that move.  The replica becomes the primary on its node, in its state, and the
target of its move goes along.

* `Foremost`, `bestReplica?_foremost` — the choice;
* `Foremost.congr` — it depends on the replicas that can take over alone;
* `Sound.primary_cases` — the primaries of a shard are its primary and the target of its move.
-/
import ShardAllocation.Proofs.Routing.Sound

namespace ShardAllocation

namespace View

variable {v w : View} {s : ShardId} {n k : NodeId} {c d r : Copy} {m : Metadata}

/-- The replica on the node comes before all others that can take over: it is started if any of
them is, and among those in its state its node has the smallest name. -/
structure Foremost (v : View) (s : ShardId) (r : Copy) (n : NodeId) : Prop where
  promotable : r ∈ v.promotable s
  node : r.node = some n
  started : ∀ d ∈ v.promotable s, d.isStarted = true → r.isStarted = true
  first : ∀ d ∈ v.promotable s, ∀ k, d.node = some k → d.isStarted = r.isStarted →
    (compare n k).isLE = true

theorem Foremost.congr (h : v.Foremost s r n)
    (hsame : ∀ d, d ∈ w.promotable s ↔ d ∈ v.promotable s) : w.Foremost s r n where
  promotable := (hsame r).mpr h.promotable
  node := h.node
  started d hd := h.started d ((hsame d).mp hd)
  first d hd := h.first d ((hsame d).mp hd)

/-- The replicas that can take over come in the order of their nodes. -/
theorem pairwise_promotable (h : v.Consistent) (s : ShardId) :
    (v.promotable s).Pairwise fun c d =>
      ∀ n k, c.node = some n → d.node = some k → compare n k = .lt := by
  have hkeys : (v.holdersOf s).keys.Pairwise fun n k => compare n k = .lt :=
    List.pairwise_map.mpr (v.holdersOf s).sorted
  have hcopies : (v.copies s).Pairwise fun c d =>
      ∀ n k, c.node = some n → d.node = some k → compare n k = .lt := by
    rw [copies_eq]
    refine hkeys.filterMap _ fun n k hlt c hc d hd i j hi hj => ?_
    -- a copy is under the name of its own node
    obtain rfl : n = i := Option.some_inj.mp ((h.own hc).2.symm.trans hi)
    obtain rfl : k = j := Option.some_inj.mp ((h.own hd).2.symm.trans hj)
    exact hlt
  exact hcopies.sublist List.filter_sublist

/-- The replica that takes over is the foremost one. -/
theorem bestReplica?_foremost (h : v.Consistent) (hbest : v.bestReplica? s = some r)
    (hn : r.node = some n) : v.Foremost s r n := by
  have hmem := bestReplica?_mem hbest
  have hpairwise := pairwise_promotable h s
  have hself : (compare n n).isLE = true := by
    rw [Std.LawfulEqOrd.compare_eq_iff_eq.mpr rfl]
    rfl
  have hafter : ∀ before after : List Copy, v.promotable s = before ++ r :: after →
      ∀ d ∈ r :: after, ∀ k, d.node = some k → (compare n k).isLE = true := by
    intro before after hsplit d hd k hk
    rw [hsplit] at hpairwise
    rcases List.mem_cons.mp hd with rfl | hd
    · obtain rfl : n = k := Option.some_inj.mp (hn.symm.trans hk)
      exact hself
    · have hlt := (List.pairwise_cons.mp (List.pairwise_append.mp hpairwise).2.1).1 d hd n k hn hk
      rw [hlt]
      rfl
  rcases Option.or_eq_some_iff.mp hbest with hfind | ⟨hnone, hhead⟩
  · -- a started one, and none before it is
    obtain ⟨hstarted, before, after, hsplit, hbefore⟩ := List.find?_eq_some_iff_append.mp hfind
    refine ⟨hmem, hn, fun _ _ _ => hstarted, fun d hd k hk hsame => ?_⟩
    rw [hsplit] at hd
    rcases List.mem_append.mp hd with hd | hd
    · have hidle := hbefore d hd
      rw [hsame, hstarted] at hidle
      cases hidle
    · exact hafter before after hsplit d hd k hk
  · -- the first one, and none is started
    obtain ⟨after, hsplit⟩ := List.head?_eq_some_iff.mp hhead
    refine ⟨hmem, hn, fun d hd hstarted => ?_, fun d hd k hk _ => ?_⟩
    · exact absurd hstarted (List.find?_eq_none.mp hnone d hd)
    · exact hafter [] after hsplit d (hsplit ▸ hd) k hk

namespace Sound

/-- A primary is the primary of its shard, or the target of its move. -/
theorem primary_cases (h : v.Sound m) (hc : v.copyOn? s n = some c)
    (ht : c.isRelocationTarget = false) (hprim : c.primary = true)
    (hd : v.copyOn? s k = some d) (hdprim : d.primary = true) : k = n ∨ c.peer = some k := by
  have hlinked := h.consistent.linked s
  cases hdt : d.isRelocationTarget with
  | false => exact .inl (h.primary_unique hc hd ht hdt hprim hdprim)
  | true =>
    -- the source of a target has its role
    obtain ⟨j, hp⟩ := Option.isSome_iff_exists.mp (Copy.isRelocationTarget_iff.mp hdt).2
    obtain ⟨e, he, hback, heprim, -⟩ := hlinked.exists_peer hd hp
    have het := hlinked.isRelocationTarget_peer hd hp he
    rw [hdt] at het
    obtain rfl := h.primary_unique hc he ht het hprim (heprim.trans hdprim)
    obtain rfl : c = e := Option.some_inj.mp (hc.symm.trans he)
    exact .inr hback

end Sound

end View

end ShardAllocation
