/-
Runs of a cluster.

A cluster starts empty, changes are declared from outside and passes are made, in any order
and by any allocators.  Every snapshot on the way is well formed, and a pass over it ends
with a fault only if its settings make no sense or `sameShard` is not among its deciders.

* `Run.invariant` — what every event keeps holds after a run;
* `Step.shard?_cases` — the entry of a shard after a change from outside;
* `reachable_wellFormed` — the snapshots are well formed, and after a pass every copy is on
  a member;
* `reachable_reroute` — passes succeed.
-/
import ShardAllocation.Proofs.Cluster.Passage

namespace ShardAllocation

/-- Something that happens to a cluster: a change from outside, or a pass with its result. -/
inductive Event where
  | members (members : Membership)
  | create (m : IndexMetadata) (since : Instant)
  | resize (index : String) (replicas : Nat) (since : Instant)
  | remove (index : String)
  | pass (a : Allocator) (t : Trigger) (r : RerouteResult)

/-- What an event makes of a snapshot.  Changes that are refused and passes that end with a
fault are no events. -/
inductive Step (s : ClusterState) : Event → ClusterState → Prop where
  | members (members : Membership) : Step s (.members members) (s.withMembers members)
  | create {m : IndexMetadata} {since : Instant} {u : ClusterState} :
    s.withIndex m since = .ok u → Step s (.create m since) u
  | resize {index : String} {replicas : Nat} {since : Instant} {u : ClusterState} :
    s.withReplicas index replicas since = .ok u → Step s (.resize index replicas since) u
  | remove {index : String} {u : ClusterState} :
    s.withoutIndex index = .ok u → Step s (.remove index) u
  | pass {a : Allocator} {t : Trigger} {r : RerouteResult} :
    a.reroute s t = .ok r → Step s (.pass a t r) r.state

/-- The snapshots that some events lead to, one after the other. -/
inductive Run (s : ClusterState) : List Event → ClusterState → Prop where
  | refl : Run s [] s
  | step {es : List Event} {e : Event} {u v : ClusterState} :
    Run s es u → Step u e v → Run s (es ++ [e]) v

/-- A snapshot that the empty cluster comes to. -/
def Reachable (s : ClusterState) : Prop := ∃ es, Run .initial es s

/-- A pass is made with the standard deciders. -/
def Event.Standard : Event → Prop
  | pass a _ _ => a.deciders = Decider.standard
  | _ => True

/-- A snapshot that the empty cluster comes to, with the standard deciders in every pass. -/
def StandardReachable (s : ClusterState) : Prop :=
  ∃ es, Run .initial es s ∧ ∀ e ∈ es, e.Standard

variable {s u : ClusterState} {es : List Event} {e : Event} {shard : ShardId}

/-- What holds before and is kept by every event holds after. -/
theorem Run.invariant (h : Run s es u) {I : ClusterState → Prop} (hs : I s)
    (hstep : ∀ {u e v}, e ∈ es → I u → Step u e v → I v) : I u := by
  induction h with
  | refl => exact hs
  | step _ hlast ih =>
    have hbefore := ih fun hmem => hstep (List.mem_append_left _ hmem)
    exact hstep (List.mem_append_right _ (List.mem_singleton_self _)) hbefore hlast

namespace Step

theorem wellFormed (h : Step s e u) (hs : s.WellFormed) : u.WellFormed := by
  cases h with
  | members ms => exact hs.withMembers ms
  | create hu => exact hs.withIndex hu
  | resize hu => exact hs.withReplicas hu
  | remove hu => exact hs.withoutIndex hu
  | pass hr =>
    obtain ⟨p, m, q, hpass⟩ := Allocator.exists_passage hs hr
    exact hpass.wellFormed

/-- The entry of a shard after an event: it is as before or resized, the index is removed or
new, or a pass was made. -/
theorem shard?_cases (h : Step s e u) (shard : ShardId) :
    u.table.shard? shard = s.table.shard? shard ∨
    (∃ x wanted since, s.table.shard? shard = some x ∧
      u.table.shard? shard = some (x.withReplicas wanted since)) ∨
    (e = .remove shard.index ∧ u.table.shard? shard = none) ∨
    (s.table.shard? shard = none ∧ ∃ m since, u.table.shard? shard =
      (IndexTable.newUnassigned m since).shards[shard.number]?) ∨
    ∃ a t r, e = .pass a t r ∧ a.reroute s t = .ok r ∧ u = r.state := by
  cases h with
  | members ms => exact .inl rfl
  | create hu =>
    obtain ⟨hnew, rfl⟩ := ClusterState.withIndex_ok hu
    simp only [RoutingTable.shard?, SortedMap.get?_insert]
    split
    next heq =>
      have hnone : s.table.get? shard.index = none := by
        rw [heq]
        simpa [SortedMap.contains] using hnew
      exact .inr (.inr (.inr (.inl ⟨by rw [hnone]; rfl, _, _, rfl⟩)))
    next => exact .inl rfl
  | resize hu =>
    obtain ⟨old, m, hold, -, rfl⟩ := ClusterState.withReplicas_ok hu
    simp only [RoutingTable.shard?, SortedMap.get?_insert]
    split
    next heq =>
      rw [heq, hold, Option.bind_some, Option.bind_some, List.getElem?_map]
      cases hx : old.shards[shard.number]? with
      | none => exact .inl rfl
      | some x => exact .inr (.inl ⟨x, _, _, rfl, rfl⟩)
    next => exact .inl rfl
  | @remove index _ hu =>
    obtain rfl := ClusterState.withoutIndex_ok hu
    simp only [RoutingTable.shard?, SortedMap.get?_erase]
    split
    next heq => exact .inr (.inr (.inl ⟨by rw [heq], rfl⟩))
    next => exact .inl rfl
  | pass hr => exact .inr (.inr (.inr (.inr ⟨_, _, _, rfl, hr, rfl⟩)))

end Step

theorem Run.wellFormed (h : Run s es u) (hs : s.WellFormed) : u.WellFormed :=
  h.invariant hs fun _ hu hstep => hstep.wellFormed hu

theorem Reachable.wellFormed (h : Reachable s) : s.WellFormed := by
  obtain ⟨es, hrun⟩ := h
  exact hrun.wellFormed ClusterState.wellFormed_initial

namespace StandardReachable

theorem reachable (h : StandardReachable s) : Reachable s :=
  h.imp fun _ hrun => hrun.1

theorem initial : StandardReachable .initial :=
  ⟨[], .refl, fun _ hmem => absurd hmem List.not_mem_nil⟩

theorem step (h : StandardReachable s) (hstep : Step s e u) (he : e.Standard) :
    StandardReachable u := by
  obtain ⟨es, hrun, hstandard⟩ := h
  refine ⟨_, hrun.step hstep, fun f hmem => ?_⟩
  rcases List.mem_append.mp hmem with hmem | hmem
  · exact hstandard f hmem
  · exact List.mem_singleton.mp hmem ▸ he

end StandardReachable

/-- A test that the result of a computation passes, once the computation is run. -/
theorem exists_ok_of_any {ε α : Type} {x : Except ε α} {P : α → Prop} [DecidablePred P]
    (h : x.toOption.any (fun r => P r) = true) : ∃ r, x = .ok r ∧ P r := by
  cases x with
  | error e => cases h
  | ok r => exact ⟨r, rfl, of_decide_eq_true h⟩

/-! ### A cluster of two members -/

/-- The snapshot after a pass with the standard deciders and default settings, or the same
one if the pass ends with a fault. -/
def ClusterState.after (s : ClusterState) (t : Trigger) : ClusterState :=
  match ({ settings := {} } : Allocator).reroute s t with
  | .ok r => r.state
  | .error _ => s

theorem StandardReachable.after (h : StandardReachable s) (t : Trigger) :
    StandardReachable (s.after t) := by
  unfold ClusterState.after
  split
  next r hr => exact h.step (.pass hr) rfl
  next => exact h

/-- Two members without reported disks. -/
def twoMembers : Membership := SortedMap.ofList [("a", none), ("b", none)]

/-- The two members with an index of one shard, whose primary and replica wait. -/
def createdCluster : ClusterState where
  version := 2
  members := twoMembers
  metadata := SortedMap.ofList [("x", ⟨"x", 1, 1⟩)]
  table := SortedMap.ofList [("x", IndexTable.newUnassigned ⟨"x", 1, 1⟩ ⟨0, 0⟩)]

/-- The two members with the primary and its replica, both started. -/
def filledCluster : ClusterState :=
  ((createdCluster.after { reason := "created", time := ⟨0, 0⟩ }).after
    { reason := "started", time := ⟨0, 0⟩, started := [⟨⟨"x", 0⟩, "a"⟩] }).after
    { reason := "started", time := ⟨0, 0⟩, started := [⟨⟨"x", 0⟩, "b"⟩] }

theorem standardReachable_filledCluster : StandardReachable filledCluster := by
  have hindex : (ClusterState.initial.withMembers twoMembers).withIndex ⟨"x", 1, 1⟩ ⟨0, 0⟩ =
      .ok createdCluster := rfl
  have hmembers := StandardReachable.initial.step (.members twoMembers) trivial
  have hcreated := hmembers.step (.create hindex) trivial
  exact ((hcreated.after _).after _).after _

/-! ### Every snapshot is well formed -/

/-- Every reachable snapshot is well formed.  So is the one after a pass, and there every
copy is on a member, and so is the target of its move. -/
theorem reachable_wellFormed (h : Reachable s) :
    s.WellFormed ∧ ∀ (a : Allocator) (t : Trigger) (r : RerouteResult), a.reroute s t = .ok r →
      r.state.WellFormed ∧ ∀ c ∈ r.state.table.copies, ∀ n ∈ c.nodes,
        r.state.members.contains n = true := by
  refine ⟨h.wellFormed, fun a t r hr => ?_⟩
  obtain ⟨p, m, q, hpass⟩ := Allocator.exists_passage h.wellFormed hr
  exact ⟨hpass.wellFormed, fun c hc n hn => hpass.members_of_mem_nodes hc hn⟩

theorem reachable_wellFormed_filled : filledCluster.WellFormed ∧
    ∀ (a : Allocator) (t : Trigger) (r : RerouteResult), a.reroute filledCluster t = .ok r →
      r.state.WellFormed ∧ ∀ c ∈ r.state.table.copies, ∀ n ∈ c.nodes,
        r.state.members.contains n = true :=
  reachable_wellFormed standardReachable_filledCluster.reachable

/-! ### No pass ends with a fault -/

/-- A pass over a reachable snapshot succeeds, whatever its trigger says. -/
theorem reachable_reroute (h : Reachable s) {a : Allocator}
    (hset : a.settings.validate = .ok ()) (hds : Decider.sameShard ∈ a.deciders) (t : Trigger) :
    ∃ r, a.reroute s t = .ok r := by
  rcases Allocator.reroute_cases h.wellFormed hset t with ⟨r, -, -, -, hr, -⟩ | ⟨hno, -⟩
  · exact ⟨r, hr⟩
  · exact absurd hds hno

/-- The reports are about a node that is unknown and about an index that does not exist. -/
theorem reachable_reroute_stale :
    ∃ r, ({ settings := {} } : Allocator).reroute filledCluster
      { reason := "stale", time := ⟨0, 0⟩, started := [⟨⟨"x", 0⟩, "c"⟩]
        failed := [⟨⟨"y", 3⟩, "a", "gone"⟩] } = .ok r :=
  reachable_reroute standardReachable_filledCluster.reachable rfl List.mem_cons_self _

end ShardAllocation
