/-
Explanations, compared with what a pass does.

An explanation asks every decider about every member and takes the worst answer for each, and a
pass stops as soon as it has an answer.  Both come to the same: what a pass over the snapshot
would do with the copy at its beginning, and what it would record, can be read off the
explanation.

* `View.Sound.exists_subject` — every declared shard has a copy to explain;
* `explain_eq_ok_iff` — what an explanation is;
* `explainCopy_foretells` — the explanation of a copy and the search for a node;
* `reachable_explain` — what explanations say in reachable snapshots.
-/
import ShardAllocation.Explanation
import ShardAllocation.Proofs.Cluster.Requests
import ShardAllocation.Proofs.Pass.Alike
import ShardAllocation.Proofs.Pass.Search

namespace ShardAllocation

variable {s : ClusterState} {shard : ShardId} {a : Allocator} {ds : List Decider}

/-- What an explanation says about the search for a node for its copy. -/
structure Explanation.Foretells (e : Explanation) (ds : List Decider) (p : Pass) : Prop where
  own : e.copy.shard = e.shard
  /-- Every member is listed once. -/
  members : (e.nodes.map (·.node)).Perm p.state.members.keys
  ordered : e.nodes.Pairwise fun d d' => Pass.TriedBefore p.view d.node d'.node
  /-- The verdicts about a node are those of the deciders, in their order, and the decision is the
  worst of them. -/
  heard : ∀ d ∈ e.nodes, ∃ n, p.view.node? d.node = some n ∧
    d.verdicts = ds.map (fun decider => decider.canAllocate e.copy n p) ∧
    Decider.IsWorst d.verdicts d.decision
  found : (∃ n, Pass.findNode ds e.copy none p = .node n) ↔ e.decision = .yes
  /-- The node that is found is the first one that accepts the copy. -/
  first : ∀ n, Pass.findNode ds e.copy none p = .node n ↔
    (e.nodes.find? fun d => d.decision == .yes).map (·.node) = some n
  /-- Every other node that accepts the copy would be tried later. -/
  lightest : ∀ n, Pass.findNode ds e.copy none p = .node n →
    ∀ d ∈ e.nodes, d.decision = .yes → d.node = n ∨ Pass.TriedBefore p.view n d.node
  deferred : ∀ answers, Pass.findNode ds e.copy none p = .deferred answers ↔
    e.decision = .throttle ∧ answers = e.nodes.map (·.brief)
  refused : ∀ answers, Pass.findNode ds e.copy none p = .refused answers ↔
    e.decision = .no ∧ answers = e.nodes.map (·.brief)
  recorded : e.decision ≠ .yes → Pass.isLostPrimary e.copy = false →
    Pass.allocateCopy ds e.copy p = .ok () { p with
      history := p.history.record e.shard ⟨e.copy.primary, e.decision, e.nodes.map (·.brief)⟩ }

/-! ### The copy that is explained -/

namespace View

variable {v : View} {m : Metadata}

/-- A shard with an assigned primary slot has a primary. -/
theorem exists_primary? (h : 0 < v.assignedCount shard id) : ∃ c, v.primary? shard = some c := by
  obtain ⟨c, hc, hslot⟩ := List.countP_pos_iff.mp h
  simp only [Copy.isSlotOf, id, Bool.and_eq_true, Bool.not_eq_true'] at hslot
  refine Option.isSome_iff_exists.mp (List.find?_isSome.mpr ⟨c, hc, ?_⟩)
  simp [hslot]

/-- Every declared shard has a copy to explain. -/
theorem Sound.exists_subject (h : v.Sound m) (hknown : m.knows shard = true) :
    ∃ c, Explanation.subject? v shard = some c := by
  have hone := h.primaries shard hknown
  rw [roleCount] at hone
  unfold Explanation.subject?
  cases hslots : v.unassignedOf shard with
  | cons c slots =>
    refine Option.isSome_iff_exists.mp ?_
    simp
  | nil =>
    -- the primary does not wait, so it is on a node
    have hwaiting : v.waitingCount shard id = 0 := List.countP_eq_zero.mpr fun c hc hslot => by
      rw [Bool.and_eq_true, beq_iff_eq] at hslot
      have hmem := mem_unassignedOf.mpr ⟨hc, hslot.1⟩
      rw [hslots] at hmem
      cases hmem
    have hassigned : 0 < v.assignedCount shard id := by omega
    obtain ⟨c, hc⟩ := exists_primary? hassigned
    exact ⟨c, by simp [hc]⟩

theorem Consistent.shard_of_subject (h : v.Consistent) {c : Copy}
    (hc : Explanation.subject? v shard = some c) : c.shard = shard := by
  unfold Explanation.subject? at hc
  rcases Option.or_eq_some_iff.mp hc with hc | ⟨-, hc⟩
  · -- one of the slots that wait
    have hmem : c ∈ v.unassignedOf shard := by
      rcases Option.or_eq_some_iff.mp hc with hc | ⟨-, hc⟩
      · exact List.mem_of_find?_eq_some hc
      · exact List.mem_of_head? hc
    exact (mem_unassignedOf.mp hmem).2
  · obtain ⟨n, hn⟩ := (mem_copies_iff h.indexed).mp (List.mem_of_find?_eq_some hc)
    exact (h.own hn).1

/-- The members of a view that has loaded a snapshot are those of the snapshot. -/
theorem Loaded.perm_liveNodes {members : List NodeId} {copies : List Copy}
    (h : Loaded members copies v) (hnodup : members.Nodup) :
    (v.liveNodes.map (·.id)).Perm members := by
  refine (List.perm_ext_iff_of_nodup (Pass.nodup_liveNodes v) hnodup).mpr fun n => ?_
  have hlive : v.isLive n = true ↔ n ∈ members := by
    rw [isLive, h.live, SortedSet.contains_ofList, decide_eq_true_iff]
  rw [List.mem_map]
  constructor
  · rintro ⟨node, hnode, rfl⟩
    exact hlive.mp (Pass.node?_of_mem_liveNodes hnode).2
  · intro hn
    obtain ⟨node, hnode, hid⟩ := Pass.exists_node? (h.covers n hn)
    exact ⟨node, Pass.mem_liveNodes hnode (hlive.mpr hn), hid⟩

end View

/-! ### What an explanation is -/

/-- An explanation is about the beginning of a pass. -/
theorem explain_eq_ok_iff {e : Explanation} {p : Pass} (hp : Pass.begin s a.settings
    (Instant.ofMilliseconds 0) = .ok p) : a.explain s shard = .ok e ↔
      s.metadata.knows shard = true ∧ ∃ c, Explanation.subject? p.view shard = some c ∧
        e = Allocator.explainCopy a.deciders p shard c := by
  unfold Allocator.explain
  cases hknown : s.metadata.knows shard with
  | false => simp [bind, Except.bind, throw, throwThe, MonadExceptOf.throw]
  | true =>
    cases hsubject : Explanation.subject? p.view shard with
    | none => simp [hp, hsubject, bind, Except.bind, throw, throwThe, MonadExceptOf.throw]
    | some c => simp [hp, hsubject, bind, Except.bind, pure, Except.pure, eq_comm]

/-- A pass that begins at another time differs in the time only. -/
theorem begin_of_time {settings : Settings} {time : Instant} {p : Pass}
    (h : Pass.begin s settings time = .ok p) (later : Instant) :
    Pass.begin s settings later = .ok { p with time := later } := by
  obtain ⟨v, hv, hp⟩ := bind_eq_ok_iff.mp h
  cases hp
  exact bind_eq_ok_iff.mpr ⟨v, hv, rfl⟩

/-! ### The explanation and the search -/

/-- The search hears in brief what the explanation says in full. -/
theorem findNode_explainCopy (hds : ds ⊆ Decider.standard) (p : Pass) (c : Copy)
    (time : Instant) : Pass.findNode ds c none { p with time } =
      .ofAnswers ((Allocator.explainCopy ds p shard c).nodes.map (·.brief)) := by
  have halike : p.Alike { p with time } := Pass.Alike.of_history p p.history time
  rw [Pass.findNode_eq, Allocator.explainCopy, List.map_map]
  refine congrArg _ (List.map_congr_left fun n _ => ?_)
  rw [halike.allocation_eq hds, ← Decider.brief_allocation]
  rfl

/-- Every node that passes a test is the first one that does, or stands behind it. -/
theorem eq_or_of_find? {α : Type} {R : α → α → Prop} {l : List α} (hl : l.Pairwise R)
    {test : α → Bool} {x y : α} (hx : l.find? test = some x) (hy : y ∈ l)
    (htest : test y = true) : y = x ∨ R x y := by
  obtain ⟨-, before, after, rfl, hbefore⟩ := List.find?_eq_some_iff_append.mp hx
  rcases List.mem_append.mp hy with hy | hy
  · have hno := hbefore y hy
    simp [htest] at hno
  · have hcons := (List.pairwise_append.mp hl).2.1
    exact (List.mem_cons.mp hy).imp_right ((List.pairwise_cons.mp hcons).1 y)

theorem explainCopy_foretells (hds : ds ⊆ Decider.standard) {p : Pass} {members : List NodeId}
    {copies : List Copy} (hloaded : View.Loaded members copies p.view)
    (hmembers : p.state.members.keys = members) (time : Instant) {c : Copy}
    (hown : c.shard = shard) :
    (Allocator.explainCopy ds p shard c).Foretells ds { p with time } := by
  set e := Allocator.explainCopy ds p shard c
  have hfind : Pass.findNode ds c none { p with time } = .ofAnswers (e.nodes.map (·.brief)) :=
    findNode_explainCopy hds p c time
  have hbest : Decision.best ((e.nodes.map (·.brief)).map (·.decision)) = e.decision := by
    rw [List.map_map]
    rfl
  have hordered : e.nodes.Pairwise fun d d' => Pass.TriedBefore p.view d.node d'.node :=
    List.pairwise_map.mpr (Pass.pairwise_candidates p.view)
  have hfirst : ∀ n, Pass.findNode ds c none { p with time } = .node n ↔
      (e.nodes.find? fun d => d.decision == .yes).map (·.node) = some n := fun n => by
    rw [hfind, Placement.ofAnswers_eq_node_iff, List.find?_map, Option.map_map]
    rfl
  have hdeferred : ∀ answers, Pass.findNode ds c none { p with time } = .deferred answers ↔
      e.decision = .throttle ∧ answers = e.nodes.map (·.brief) := fun answers => by
    rw [hfind, Placement.ofAnswers_eq_deferred_iff, hbest]
  have hrefused : ∀ answers, Pass.findNode ds c none { p with time } = .refused answers ↔
      e.decision = .no ∧ answers = e.nodes.map (·.brief) := fun answers => by
    rw [hfind, Placement.ofAnswers_eq_refused_iff, hbest]
  constructor
  case own => exact hown
  case members =>
    have hlive := hloaded.perm_liveNodes (hmembers ▸ p.state.members.nodup_keys)
    have hnodes : e.nodes.map (·.node) = (Pass.candidates p.view).map (·.id) := by
      simp only [e, Allocator.explainCopy, List.map_map]
      rfl
    rw [hnodes, hmembers]
    exact ((Pass.perm_candidates p.view).map (·.id)).trans hlive
  case ordered => exact hordered
  case heard =>
    intro d hd
    obtain ⟨node, hnode, rfl⟩ := List.mem_map.mp hd
    have hlive := (Pass.perm_candidates p.view).mem_iff.mp hnode
    have halike : p.Alike { p with time } := Pass.Alike.of_history p p.history time
    refine ⟨node, (Pass.node?_of_mem_liveNodes hlive).1, ?_, Decider.isWorst_worstOf _⟩
    exact List.map_congr_left fun decider hdecider =>
      ((halike.verdicts_eq (hds hdecider) c).1 node).symm
  case found =>
    show (∃ n, Pass.findNode ds c none { p with time } = .node n) ↔ _
    rw [hfind, Placement.exists_ofAnswers_eq_node_iff, hbest]
  case first => exact hfirst
  case lightest =>
    intro n hn d hd hyes
    obtain ⟨f, hf, rfl⟩ := Option.map_eq_some_iff.mp ((hfirst n).mp hn)
    exact (eq_or_of_find? hordered hf hd (by simp [hyes])).imp_left (congrArg _)
  case deferred => exact hdeferred
  case refused => exact hrefused
  case recorded =>
    intro hno hlost
    have hlost : Pass.isLostPrimary c = false := hlost
    show Pass.allocateCopy ds c { p with time } = .ok () { p with
      time, history := p.history.record shard ⟨c.primary, e.decision, e.nodes.map (·.brief)⟩ }
    rw [Pass.allocateCopy, ← hown]
    simp only [hlost, Bool.not_false, if_true]
    rw [bind_ok (get_eq _)]
    cases hdecision : e.decision with
    | yes => exact absurd hdecision hno
    | throttle =>
      rw [(hdeferred _).mpr ⟨hdecision, rfl⟩]
      rfl
    | no =>
      rw [(hrefused _).mpr ⟨hdecision, rfl⟩]
      rfl

/-- Every shard that is declared is explained, and no other one.  Whenever a pass begins on the
snapshot, the search for a node for the copy comes to what the explanation says, and records what
the explanation says in brief. -/
theorem reachable_explain (h : Reachable s) (hds : a.deciders ⊆ Decider.standard)
    (shard : ShardId) (time : Instant) :
    ((∃ e, a.explain s shard = .ok e) ↔ s.metadata.knows shard = true) ∧
      ∃ p, Pass.begin s a.settings time = .ok p ∧
        ∀ e, a.explain s shard = .ok e → e.shard = shard ∧ e.Foretells a.deciders p := by
  obtain ⟨p, hp, hsound, rfl, -, -, hloaded⟩ :=
    h.wellFormed.begin_eq a.settings (Instant.ofMilliseconds 0)
  refine ⟨?_, { p with time }, begin_of_time hp time, fun e he => ?_⟩
  · constructor
    · rintro ⟨e, he⟩
      exact ((explain_eq_ok_iff hp).mp he).1
    · intro hknown
      obtain ⟨c, hc⟩ := hsound.view.exists_subject hknown
      exact ⟨_, (explain_eq_ok_iff hp).mpr ⟨hknown, c, hc, rfl⟩⟩
  · obtain ⟨-, c, hc, rfl⟩ := (explain_eq_ok_iff hp).mp he
    exact ⟨rfl, explainCopy_foretells hds hloaded rfl time
      (hsound.view.consistent.shard_of_subject hc)⟩

/-- A replica waits although there is a node for it, and a pass would find this node. -/
theorem reachable_explain_joined :
    ∃ e p, ({ settings := {} } : Allocator).explain joinedCluster ⟨"x", 0⟩ = .ok e ∧
      e.copy.isUnassigned = true ∧ e.decision = .yes ∧
      Pass.begin joinedCluster {} ⟨5, 0⟩ = .ok p ∧ e.Foretells Decider.standard p := by
  have hrun : (({ settings := {} } : Allocator).explain joinedCluster ⟨"x", 0⟩).toOption.any
      (fun e => e.copy.isUnassigned = true ∧ e.decision = .yes) = true := by
    decide +kernel
  obtain ⟨e, he, hwaits, hyes⟩ := exists_ok_of_any hrun
  obtain ⟨-, p, hp, hforetells⟩ := reachable_explain (a := { settings := {} })
    standardReachable_joinedCluster.reachable (List.Subset.refl _) ⟨"x", 0⟩ ⟨5, 0⟩
  exact ⟨e, p, he, hwaits, hyes, hp, (hforetells e he).2⟩

end ShardAllocation
