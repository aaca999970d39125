/-
What readers get to see.

A batch is folded into a snapshot that nobody sees, and the snapshot of its pass is adopted
as a whole or not at all.  The version counts what happened on the way: one for each request
that the folding accepts, and one for a pass that changes something.  So the two signs of
change that the coordinator looks at, a new version and a pass that changed something, say
together that the version grew, and what readers see is always the snapshot that the next
batch starts from.

* `Request.version_foldl` — the version of the folded snapshot;
* `publication?_eq` — a snapshot is published exactly if its version is new;
* `published_process` — readers see the snapshot that the coordinator goes on with;
* `publishes_atomically` — this and the order of the published versions, for all batches.
-/
import ShardAllocation.Proofs.Coordinator.Batch

namespace ShardAllocation

namespace Request

variable {s : ClusterState} {time : Instant} {r : Request} {batch : List Request}

/-- Whether a request changes the working snapshot. -/
def isAccepted (time : Instant) (s : ClusterState) : Request → Bool
  | nodesChanged _ => true
  | createIndex index => (s.withIndex index time).isOk
  | setReplicas index replicas => (s.withReplicas index replicas time).isOk
  | _ => false

/-- How many requests of a batch are accepted, each on the snapshot that the ones before it
made. -/
def accepted (time : Instant) : ClusterState → List Request → Nat
  | _, [] => 0
  | s, r :: rest => (r.isAccepted time s).toNat + accepted time (r.onState time s) rest

theorem version_onState (time : Instant) (s : ClusterState) (r : Request) :
    (r.onState time s).version = s.version + (r.isAccepted time s).toNat := by
  cases r with
  | nodesChanged members => rfl
  | createIndex index =>
    simp only [onState, isAccepted]
    cases hu : s.withIndex index time with
    | error e => rfl
    | ok u =>
      obtain ⟨-, rfl⟩ := ClusterState.withIndex_ok hu
      rfl
  | setReplicas index replicas =>
    simp only [onState, isAccepted]
    cases hu : s.withReplicas index replicas time with
    | error e => rfl
    | ok u =>
      obtain ⟨old, m, -, -, rfl⟩ := ClusterState.withReplicas_ok hu
      rfl
  | _ => rfl

/-- What is not accepted changes nothing. -/
theorem onState_of_not_accepted (h : r.isAccepted time s = false) : r.onState time s = s := by
  cases r with
  | nodesChanged members => cases h
  | createIndex index =>
    simp only [onState]
    simp only [isAccepted] at h
    cases hu : s.withIndex index time with
    | error e => rfl
    | ok u =>
      rw [hu] at h
      cases h
  | setReplicas index replicas =>
    simp only [onState]
    simp only [isAccepted] at h
    cases hu : s.withReplicas index replicas time with
    | error e => rfl
    | ok u =>
      rw [hu] at h
      cases h
  | _ => rfl

/-- The version of the folded snapshot counts the accepted requests. -/
theorem version_foldl (time : Instant) (s : ClusterState) (batch : List Request) :
    (batch.foldl (onState time) s).version = s.version + accepted time s batch := by
  induction batch generalizing s with
  | nil => rfl
  | cons r batch ih =>
    rw [List.foldl_cons, ih, version_onState, accepted]
    omega

theorem foldl_of_accepted_eq_zero (h : accepted time s batch = 0) :
    batch.foldl (onState time) s = s := by
  induction batch generalizing s with
  | nil => rfl
  | cons r batch ih =>
    rw [accepted, Nat.add_eq_zero_iff, Bool.toNat_eq_zero] at h
    have hsame := onState_of_not_accepted h.1
    rw [hsame] at h
    rw [List.foldl_cons, hsame]
    exact ih h.2

end Request

/-! ### The version after a pass -/

namespace Allocator

variable {a : Allocator} {s : ClusterState} {t : Trigger} {r : RerouteResult}

/-- A pass that changed something has a new table or a new history, and no other has. -/
theorem changed_iff (h : a.reroute s t = .ok r) :
    r.changed = true ↔ r.state.table ≠ s.table ∨ r.state.history ≠ s.history := by
  obtain ⟨-, q, outcomes, -, -, rfl⟩ := exists_conclude h
  simp only [conclude]
  split
  next hchanged => exact ⟨fun _ => hchanged, fun _ => rfl⟩
  next => simp

theorem version_of_reroute (h : a.reroute s t = .ok r) :
    r.state.version = s.version + r.changed.toNat := by
  obtain ⟨-, q, outcomes, -, -, rfl⟩ := exists_conclude h
  exact version_conclude _ outcomes

theorem state_of_unchanged (h : a.reroute s t = .ok r) (hsame : r.changed = false) :
    r.state = s := by
  obtain ⟨-, q, outcomes, -, -, rfl⟩ := exists_conclude h
  exact conclude_unchanged hsame

end Allocator

namespace Coordinator

variable {a : Allocator} {s : ClusterState} {c : Coordinator} {time : Instant}
variable {batch : List Request} {r : RerouteResult} {fault : Fault}

/-! ### One batch -/

/-- The version after the pass of a batch. -/
theorem version_of_pass (hr : c.allocator.reroute (Gathering.ofBatch c.state time batch).working
      (Gathering.ofBatch c.state time batch).trigger = .ok r) :
    r.state.version = c.state.version + Request.accepted time c.state batch +
      r.changed.toNat := by
  rw [Allocator.version_of_reroute hr, (Gathering.ofBatch_holds c.state time batch).working,
    Request.version_foldl]

/-- A snapshot is published exactly if its version is new. -/
theorem publication?_eq (hr : c.allocator.reroute (Gathering.ofBatch c.state time batch).working
      (Gathering.ofBatch c.state time batch).trigger = .ok r) :
    c.publication? (Gathering.ofBatch c.state time batch).working r =
      if c.state.version < r.state.version then some r.state else none := by
  have hversion := version_of_pass hr
  have hworking : (Gathering.ofBatch c.state time batch).working.version =
      c.state.version + Request.accepted time c.state batch := by
    rw [(Gathering.ofBatch_holds c.state time batch).working, Request.version_foldl]
  rw [publication?]
  refine if_congr ?_ rfl rfl
  cases hchanged : r.changed with
  | false =>
    rw [hchanged, Bool.toNat_false] at hversion
    simp only [Bool.false_eq_true, or_false]
    omega
  | true =>
    rw [hchanged, Bool.toNat_true] at hversion
    simp only [or_true, true_iff]
    omega

/-- Where the version is not new, the snapshot is the same. -/
theorem state_of_version (hr : c.allocator.reroute (Gathering.ofBatch c.state time batch).working
      (Gathering.ofBatch c.state time batch).trigger = .ok r)
    (h : ¬ c.state.version < r.state.version) : r.state = c.state := by
  have hversion := version_of_pass hr
  have hunchanged : r.changed = false := Bool.toNat_eq_zero.mp (by omega)
  rw [Allocator.state_of_unchanged hr hunchanged,
    (Gathering.ofBatch_holds c.state time batch).working]
  exact Request.foldl_of_accepted_eq_zero (by omega)

/-- Readers go on to see the snapshot that the next batch starts from. -/
theorem published_process (h : c.published = c.state) (time : Instant) (batch : List Request) :
    (c.process time batch).coordinator.published = (c.process time batch).coordinator.state := by
  cases hr : c.allocator.reroute (Gathering.ofBatch c.state time batch).working
      (Gathering.ofBatch c.state time batch).trigger with
  | error fault =>
    obtain ⟨hstate, hpublished, -⟩ := c.afterFault_eq fault
    rw [(process_of_error hr).1, hpublished, hstate, h]
  | ok r =>
    rw [(process_of_ok hr).1]
    show (c.publication? _ r).getD c.published = r.state
    rw [publication?_eq hr]
    split
    next => rfl
    next hsame => rw [Option.getD_none, h, state_of_version hr hsame]

/-- What readers see after a batch is what was published, or what they saw before. -/
theorem published_eq (c : Coordinator) (time : Instant) (batch : List Request) :
    (c.process time batch).coordinator.published =
      (c.process time batch).publication.getD c.published := by
  cases hr : c.allocator.reroute (Gathering.ofBatch c.state time batch).working
      (Gathering.ofBatch c.state time batch).trigger with
  | error fault =>
    rw [(process_of_error hr).1, (process_of_error hr).2.1]
    exact (c.afterFault_eq fault).2.1
  | ok r =>
    rw [(process_of_ok hr).1, (process_of_ok hr).2.1]
    rfl

/-- What is published is the snapshot of a pass, and newer than the one before. -/
theorem of_publication {u : ClusterState} (h : (c.process time batch).publication = some u) :
    u = (c.process time batch).coordinator.state ∧ c.state.version < u.version ∧
      ∃ r, c.allocator.reroute (Gathering.ofBatch c.state time batch).working
        (Gathering.ofBatch c.state time batch).trigger = .ok r ∧ r.state = u := by
  cases hr : c.allocator.reroute (Gathering.ofBatch c.state time batch).working
      (Gathering.ofBatch c.state time batch).trigger with
  | error fault =>
    rw [(process_of_error hr).2.1] at h
    cases h
  | ok r =>
    rw [(process_of_ok hr).2.1, publication?_eq hr] at h
    split at h
    next hnew =>
      obtain rfl := Option.some_inj.mp h
      exact ⟨by rw [(process_of_ok hr).1]; rfl, hnew, r, rfl, rfl⟩
    next => cases h

/-- Without a publication the snapshot stays. -/
theorem state_of_no_publication (h : (c.process time batch).publication = none) :
    (c.process time batch).coordinator.state = c.state := by
  cases hr : c.allocator.reroute (Gathering.ofBatch c.state time batch).working
      (Gathering.ofBatch c.state time batch).trigger with
  | error fault =>
    rw [(process_of_error hr).1]
    exact (c.afterFault_eq fault).1
  | ok r =>
    rw [(process_of_ok hr).2.1, publication?_eq hr] at h
    split at h
    next => cases h
    next hsame =>
      rw [(process_of_ok hr).1]
      exact state_of_version hr hsame

/-! ### All batches -/

/-- The coordinator after some batches, each with its time. -/
def afterAll (c : Coordinator) : List (Instant × List Request) → Coordinator
  | [] => c
  | b :: rest => (c.process b.1 b.2).coordinator.afterAll rest

/-- What readers are sent while some batches are processed. -/
def publications (c : Coordinator) : List (Instant × List Request) → List ClusterState
  | [] => []
  | b :: rest =>
    (c.process b.1 b.2).publication.toList ++
      (c.process b.1 b.2).coordinator.publications rest

variable {batches : List (Instant × List Request)}

theorem published_afterAll (h : c.published = c.state) (batches : List (Instant × List Request)) :
    (c.afterAll batches).published = (c.afterAll batches).state ∧
      (c.afterAll batches).allocator = c.allocator := by
  induction batches generalizing c with
  | nil => exact ⟨h, rfl⟩
  | cons b rest ih =>
    obtain ⟨hpublished, hallocator⟩ := ih (published_process h b.1 b.2)
    exact ⟨hpublished, hallocator.trans (allocator_process c b.1 b.2)⟩

/-- Published versions grow, from the one that readers saw first. -/
theorem pairwise_publications (c : Coordinator) (batches : List (Instant × List Request)) :
    (c.state :: c.publications batches).Pairwise fun u w => u.version < w.version := by
  induction batches generalizing c with
  | nil => exact List.pairwise_singleton _ _
  | cons b rest ih =>
    rw [publications]
    have hrest := ih (c.process b.1 b.2).coordinator
    cases hpub : (c.process b.1 b.2).publication with
    | none =>
      rw [state_of_no_publication hpub] at hrest
      exact hrest
    | some u =>
      obtain ⟨hstate, hnew, -⟩ := of_publication hpub
      rw [← hstate] at hrest
      refine List.pairwise_cons.mpr ⟨fun w hw => ?_, hrest⟩
      rcases List.mem_cons.mp hw with rfl | hw
      · exact hnew
      · exact Nat.lt_trans hnew ((List.pairwise_cons.mp hrest).1 w hw)

/-- Readers see what was published last. -/
theorem published_afterAll_eq (c : Coordinator) (batches : List (Instant × List Request)) :
    (c.afterAll batches).published = (c.publications batches).getLast?.getD c.published := by
  induction batches generalizing c with
  | nil => rfl
  | cons b rest ih =>
    rw [afterAll, publications, ih, published_eq, List.getLast?_append]
    cases ((c.process b.1 b.2).coordinator.publications rest).getLast? with
    | some u => rfl
    | none => cases (c.process b.1 b.2).publication <;> rfl

/-- Every published snapshot is the one of a pass that succeeded. -/
theorem exists_pass_of_mem {u : ClusterState} (hu : u ∈ c.publications batches) :
    ∃ before time batch after r, batches = before ++ (time, batch) :: after ∧
      c.allocator.reroute (Gathering.ofBatch (c.afterAll before).state time batch).working
        (Gathering.ofBatch (c.afterAll before).state time batch).trigger = .ok r ∧
      r.state = u := by
  induction batches generalizing c with
  | nil => cases hu
  | cons b rest ih =>
    rcases List.mem_append.mp hu with hfirst | hlater
    · obtain ⟨-, -, r, hr, hstate⟩ := of_publication (Option.mem_toList.mp hfirst)
      exact ⟨[], b.1, b.2, rest, r, rfl, hr, hstate⟩
    · obtain ⟨before, time, batch, after, r, rfl, hr, hstate⟩ := ih hlater
      rw [allocator_process] at hr
      exact ⟨b :: before, time, batch, after, r, rfl, hr, hstate⟩

/-- Publication is atomic and monotone.  Between two batches readers see the snapshot that the
next batch starts from.  A batch whose pass succeeds counts the version up by its accepted
requests and by one for a change that the pass made, and publishes the snapshot of the pass
once, if its version is new; a batch whose pass fails leaves everything as it was.  The
published versions grow, and every published snapshot is that of a pass that succeeded. -/
theorem publishes_atomically (a : Allocator) (s : ClusterState)
    (batches : List (Instant × List Request)) :
    let c := (start a s).afterAll batches
    c.published = c.state ∧
    (∀ time batch,
      let g := Gathering.ofBatch c.state time batch
      let b := c.process time batch
      b.coordinator.published = b.coordinator.state ∧
      ((∃ r, a.reroute g.working g.trigger = .ok r ∧ b.fault = none ∧
          b.coordinator.state = r.state ∧
          b.coordinator.state.version = c.state.version + Request.accepted time c.state batch +
            (if r.state.table ≠ g.working.table ∨ r.state.history ≠ g.working.history
              then 1 else 0) ∧
          b.publication = if c.state.version < b.coordinator.state.version
            then some b.coordinator.state else none) ∨
        (∃ fault, a.reroute g.working g.trigger = .error fault ∧ b.fault = some fault ∧
          b.coordinator.state = c.state ∧ b.coordinator.published = c.published ∧
          b.publication = none ∧ b.recoveries = []))) ∧
    (s :: (start a s).publications batches).Pairwise (fun u w => u.version < w.version) ∧
    c.published = ((start a s).publications batches).getLast?.getD s ∧
    ∀ u ∈ (start a s).publications batches, ∃ before time batch after r,
      batches = before ++ (time, batch) :: after ∧
      a.reroute (Gathering.ofBatch ((start a s).afterAll before).state time batch).working
        (Gathering.ofBatch ((start a s).afterAll before).state time batch).trigger = .ok r ∧
      r.state = u := by
  intro c
  obtain ⟨hpublished, hallocator⟩ := published_afterAll (c := start a s) rfl batches
  refine ⟨hpublished, fun time batch => ⟨published_process hpublished time batch, ?_⟩,
    pairwise_publications (start a s) batches, published_afterAll_eq (start a s) batches,
    fun u hu => exists_pass_of_mem hu⟩
  have hallocator : c.allocator = a := hallocator
  rw [← hallocator]
  cases hr : c.allocator.reroute (Gathering.ofBatch c.state time batch).working
      (Gathering.ofBatch c.state time batch).trigger with
  | error fault =>
    obtain ⟨hcoordinator, hpublication, hrecoveries, hfault⟩ := process_of_error hr
    obtain ⟨hstate, hsame, -⟩ := c.afterFault_eq fault
    rw [← hcoordinator] at hstate hsame
    exact .inr ⟨fault, rfl, hfault, hstate, hsame, hpublication, hrecoveries⟩
  | ok r =>
    obtain ⟨hcoordinator, hpublication, -, hfault⟩ := process_of_ok hr
    have hstate : (c.process time batch).coordinator.state = r.state := by
      rw [hcoordinator]
      rfl
    refine .inl ⟨r, rfl, hfault, hstate, ?_, ?_⟩
    · rw [hstate, version_of_pass hr]
      rw [← if_congr (Allocator.changed_iff hr) rfl rfl]
      cases r.changed <;> rfl
    · rw [hstate, hpublication, publication?_eq hr]

end Coordinator

end ShardAllocation
