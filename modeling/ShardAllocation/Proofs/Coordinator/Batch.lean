/-
What a batch is folded into, and the coordinators that batches lead to.

The one pass of a batch starts from a working snapshot.  It is the snapshot that the requests
of the batch make of the last one, each request in its turn; what a request asks for that is
refused changes nothing.  The reports of the batch are those of the trigger, in their order.

* `Request.onState` — what one request makes of a snapshot;
* `Request.members_foldl` — the membership that is named last is the one that counts;
* `Gathering.ofBatch_holds` — the working snapshot and the reports of a batch;
* `process_of_ok`, `process_of_error` — what a batch gives whose pass succeeds or fails;
* `Coordinator.Reached` — the coordinators that batches lead to, with well-formed snapshots.
-/
import ShardAllocation.Coordinator
import ShardAllocation.Proofs.Cluster.Run

namespace ShardAllocation

namespace Request

/-- What a request makes of the working snapshot. -/
def onState (time : Instant) (s : ClusterState) : Request → ClusterState
  | nodesChanged members => s.withMembers members
  | createIndex index => (s.withIndex index time).toOption.getD s
  | setReplicas index replicas => (s.withReplicas index replicas time).toOption.getD s
  | _ => s

/-- The membership that a request names. -/
def membership? : Request → Option Membership
  | nodesChanged members => some members
  | _ => none

/-- The started report that a request brings. -/
def started? : Request → Option StartedReport
  | shardStarted report => some report
  | _ => none

/-- The failed report that a request brings. -/
def failed? : Request → Option FailedReport
  | shardFailed report => some report
  | _ => none

variable {s : ClusterState} {shard : ShardId}

theorem wellFormed_onState (h : s.WellFormed) (time : Instant) (r : Request) :
    (r.onState time s).WellFormed := by
  cases r with
  | nodesChanged members => exact h.withMembers members
  | createIndex index =>
    simp only [onState]
    cases hu : s.withIndex index time with
    | ok u => exact h.withIndex hu
    | error e => exact h
  | setReplicas index replicas =>
    simp only [onState]
    cases hu : s.withReplicas index replicas time with
    | ok u => exact h.withReplicas hu
    | error e => exact h
  | _ => exact h

theorem wellFormed_foldl (h : s.WellFormed) (time : Instant) (batch : List Request) :
    (batch.foldl (onState time) s).WellFormed := by
  induction batch generalizing s with
  | nil => exact h
  | cons r batch ih => exact ih (wellFormed_onState h time r)

theorem members_onState (time : Instant) (s : ClusterState) (r : Request) :
    (r.onState time s).members = r.membership?.getD s.members := by
  cases r with
  | nodesChanged members => rfl
  | createIndex index =>
    simp only [onState, membership?]
    cases hu : s.withIndex index time with
    | ok u =>
      obtain ⟨-, rfl⟩ := ClusterState.withIndex_ok hu
      rfl
    | error e => rfl
  | setReplicas index replicas =>
    simp only [onState, membership?]
    cases hu : s.withReplicas index replicas time with
    | ok u =>
      obtain ⟨old, m, -, -, rfl⟩ := ClusterState.withReplicas_ok hu
      rfl
    | error e => rfl
  | _ => rfl

/-- The members after a batch: of the memberships that it names the last one counts. -/
def membersAfter (members : Membership) (batch : List Request) : Membership :=
  (batch.filterMap membership?).getLast?.getD members

theorem members_foldl (time : Instant) (s : ClusterState) (batch : List Request) :
    (batch.foldl (onState time) s).members = membersAfter s.members batch := by
  induction batch generalizing s with
  | nil => rfl
  | cons r batch ih =>
    rw [List.foldl_cons, ih, members_onState, membersAfter, membersAfter, List.filterMap_cons]
    cases hr : r.membership? with
    | none => rfl
    | some members =>
      rw [List.getLast?_cons]
      rfl

/-- The entry of a shard is left alone by a request, or resized by one for its index. -/
theorem shard?_onState {x : ShardTable} (hx : s.table.shard? shard = some x) (time : Instant)
    (r : Request) : (r.onState time s).table.shard? shard = some x ∨
      ∃ wanted, r = .setReplicas shard.index wanted ∧
        (r.onState time s).table.shard? shard = some (x.withReplicas wanted time) := by
  cases r with
  | createIndex index =>
    left
    simp only [onState]
    cases hu : s.withIndex index time with
    | error e => exact hx
    | ok u =>
      obtain ⟨hnew, rfl⟩ := ClusterState.withIndex_ok hu
      -- the index of the shard is there already, so it is not the one that is created
      have hne : shard.index ≠ index.name := fun heq => by
        rw [SortedMap.contains, ← heq, Option.isSome_eq_false_iff, Option.isNone_iff_eq_none]
          at hnew
        rw [RoutingTable.shard?, hnew] at hx
        cases hx
      show RoutingTable.shard? (s.table.insert index.name _) shard = some x
      rw [RoutingTable.shard?, SortedMap.get?_insert_of_ne _ hne]
      exact hx
  | setReplicas index wanted =>
    simp only [onState]
    cases hu : s.withReplicas index wanted time with
    | error e => exact .inl hx
    | ok u =>
      obtain ⟨old, m, hold, -, rfl⟩ := ClusterState.withReplicas_ok hu
      by_cases heq : shard.index = index
      · subst heq
        refine .inr ⟨wanted, rfl, ?_⟩
        have hentry : old.shards[shard.number]? = some x := by
          rw [RoutingTable.shard?, hold] at hx
          exact hx
        show RoutingTable.shard? (s.table.insert shard.index _) shard = _
        rw [RoutingTable.shard?, SortedMap.get?_insert_self, Option.bind_some,
          List.getElem?_map, hentry]
        rfl
      · left
        show RoutingTable.shard? (s.table.insert index _) shard = some x
        rw [RoutingTable.shard?, SortedMap.get?_insert_of_ne _ heq]
        exact hx
  | _ => exact .inl hx

theorem filterMap_cons {α : Type} (f : Request → Option α) (r : Request) (batch : List Request) :
    (r :: batch).filterMap f = (f r).toList ++ batch.filterMap f := by
  rw [List.filterMap_cons]
  cases f r <;> rfl

end Request

namespace Gathering

variable {g : Gathering} {s : ClusterState} {time : Instant}

/-- What a gathering hands to the pass, apart from its commands and the wording of its
reasons. -/
structure Holds (g : Gathering) (s : ClusterState) (time : Instant)
    (started : List StartedReport) (failed : List FailedReport) : Prop where
  working : g.working = s
  time : g.trigger.time = time
  started : g.trigger.started = started
  failed : g.trigger.failed = failed

variable {started : List StartedReport} {failed : List FailedReport}

theorem Holds.because (h : g.Holds s time started failed) (reason : String) :
    (g.because reason).Holds s time started failed := by
  unfold Gathering.because
  split
  · exact h
  · exact ⟨h.working, h.time, h.started, h.failed⟩

theorem Holds.declare (h : g.Holds s time started failed) (ticket : Nat) (reason : String)
    (change : Except Fault ClusterState) :
    (g.declare ticket reason change).Holds (change.toOption.getD s) time started failed := by
  unfold Gathering.declare
  cases change with
  | ok working =>
    apply Holds.because
    exact ⟨rfl, h.time, h.started, h.failed⟩
  | error fault => exact ⟨h.working, h.time, h.started, h.failed⟩

theorem Holds.add (h : g.Holds s time started failed) (ticket : Nat) (r : Request) :
    (g.add ticket r).Holds (r.onState time s) time (started ++ r.started?.toList)
      (failed ++ r.failed?.toList) := by
  obtain ⟨rfl, rfl, rfl, rfl⟩ := h
  have hsame : g.Holds g.working g.trigger.time (g.trigger.started ++ [])
      (g.trigger.failed ++ []) := ⟨rfl, rfl, (List.append_nil _).symm, (List.append_nil _).symm⟩
  cases r with
  | nodesChanged members =>
    apply Holds.because
    exact ⟨rfl, rfl, hsame.started, hsame.failed⟩
  | shardStarted report =>
    apply Holds.because
    exact ⟨rfl, rfl, rfl, hsame.failed⟩
  | shardFailed report =>
    apply Holds.because
    exact ⟨rfl, rfl, hsame.started, rfl⟩
  | command command =>
    apply Holds.because
    exact ⟨rfl, rfl, hsame.started, hsame.failed⟩
  | reroute =>
    apply Holds.because
    exact ⟨rfl, rfl, hsame.started, hsame.failed⟩
  | createIndex index => exact hsame.declare ..
  | setReplicas index replicas => exact hsame.declare ..
  | explain shard => exact ⟨rfl, rfl, hsame.started, hsame.failed⟩
  | shutdown => exact hsame

theorem Holds.addAll (h : g.Holds s time started failed) (ticket : Nat) (batch : List Request) :
    (g.addAll ticket batch).Holds (batch.foldl (Request.onState time) s) time
      (started ++ batch.filterMap Request.started?)
      (failed ++ batch.filterMap Request.failed?) := by
  induction batch generalizing g s started failed ticket with
  | nil =>
    rw [List.filterMap_nil, List.filterMap_nil, List.append_nil, List.append_nil]
    exact h
  | cons r batch ih =>
    have hrest := ih (h.add ticket r) (ticket + 1)
    rwa [List.append_assoc, List.append_assoc, ← Request.filterMap_cons,
      ← Request.filterMap_cons] at hrest

/-- The working snapshot and the reports of a batch. -/
theorem ofBatch_holds (s : ClusterState) (time : Instant) (batch : List Request) :
    (ofBatch s time batch).Holds (batch.foldl (Request.onState time) s) time
      (batch.filterMap Request.started?) (batch.filterMap Request.failed?) := by
  have hall := Holds.addAll (g := { working := s, trigger := { reason := "coordinator", time } })
    ⟨rfl, rfl, rfl, rfl⟩ 0 batch
  unfold ofBatch finish
  split
  · exact hall
  · exact ⟨hall.working, hall.time, hall.started, hall.failed⟩

end Gathering

/-! ### Coordinators -/

namespace Coordinator

/-- The coordinators that batches lead to from a snapshot. -/
inductive Reached (a : Allocator) (s : ClusterState) : Coordinator → Prop where
  | start : Reached a s (Coordinator.start a s)
  | process {c : Coordinator} (time : Instant) (batch : List Request) :
    Reached a s c → Reached a s (c.process time batch).coordinator

variable {a : Allocator} {s : ClusterState} {c : Coordinator} {time : Instant}
variable {batch : List Request} {r : RerouteResult} {fault : Fault}

/-- What a batch gives whose pass succeeds. -/
theorem process_of_ok (hr : c.allocator.reroute (Gathering.ofBatch c.state time batch).working
      (Gathering.ofBatch c.state time batch).trigger = .ok r) :
    (c.process time batch).coordinator =
        c.afterPass (Gathering.ofBatch c.state time batch).working r ∧
      (c.process time batch).publication =
        c.publication? (Gathering.ofBatch c.state time batch).working r ∧
      (c.process time batch).recoveries = r.recoveries ∧
      (c.process time batch).fault = none := by
  refine ⟨?_, ?_, ?_, ?_⟩ <;>
    · unfold process
      simp only [hr]

/-- What a batch gives whose pass fails. -/
theorem process_of_error (hr : c.allocator.reroute (Gathering.ofBatch c.state time batch).working
      (Gathering.ofBatch c.state time batch).trigger = .error fault) :
    (c.process time batch).coordinator = c.afterFault fault ∧
      (c.process time batch).publication = none ∧ (c.process time batch).recoveries = [] ∧
      (c.process time batch).fault = some fault := by
  refine ⟨?_, ?_, ?_, ?_⟩ <;>
    · unfold process
      simp only [hr]

theorem afterFault_eq (c : Coordinator) (fault : Fault) : (c.afterFault fault).state = c.state ∧
    (c.afterFault fault).published = c.published ∧
    (c.afterFault fault).allocator = c.allocator := by
  unfold afterFault
  split <;> exact ⟨rfl, rfl, rfl⟩

theorem allocator_process (c : Coordinator) (time : Instant) (batch : List Request) :
    (c.process time batch).coordinator.allocator = c.allocator := by
  cases hr : c.allocator.reroute (Gathering.ofBatch c.state time batch).working
      (Gathering.ofBatch c.state time batch).trigger with
  | ok r =>
    rw [(process_of_ok hr).1]
    rfl
  | error fault => rw [(process_of_error hr).1, (c.afterFault_eq fault).2.2]

theorem Reached.spec (h : Reached a s c) (hs : s.WellFormed) :
    c.allocator = a ∧ c.state.WellFormed := by
  induction h with
  | start => exact ⟨rfl, hs⟩
  | @process c time batch _ ih =>
    obtain ⟨ha, hc⟩ := ih
    refine ⟨(allocator_process c time batch).trans ha, ?_⟩
    have hworking : (Gathering.ofBatch c.state time batch).working.WellFormed := by
      rw [(Gathering.ofBatch_holds c.state time batch).working]
      exact Request.wellFormed_foldl hc time batch
    cases hr : c.allocator.reroute (Gathering.ofBatch c.state time batch).working
        (Gathering.ofBatch c.state time batch).trigger with
    | error fault =>
      -- nothing of a pass that failed is kept
      rw [(process_of_error hr).1, (c.afterFault_eq fault).1]
      exact hc
    | ok r =>
      obtain ⟨p, m, q, hpass⟩ := Allocator.exists_passage hworking hr
      rw [(process_of_ok hr).1]
      exact hpass.wellFormed

end Coordinator

end ShardAllocation
