/-
What the callers of a batch are answered.

A caller who is not refused waits for the pass, and what it waits for is fixed when its
request is folded in: for a command this is a position among the commands of the batch.  The
positions of a batch are all different, so an outcome that is given to one caller is never
missed by another, and every caller that waits can be answered from the result of the pass
alone.  A request that is refused adds nothing to the batch but its answer.

* `Gathering.answersTo_ofBatch` — the answers to one caller, read off its request, the
  snapshot and the commands before it;
* `Gathering.asks_ofBatch_of_refusal?` — the batch without a request that is refused;
* `answers_process` — one pass answers all who wait;
* `answers_each_caller` — every caller gets its own answer.
-/
import ShardAllocation.Proofs.Coordinator.Batch
import ShardAllocation.Proofs.Pass.Fault

namespace ShardAllocation

/-- The answers to the caller with a ticket. -/
def answersTo (deliveries : List Delivery) (ticket : Nat) : List Answer :=
  (deliveries.filter (·.ticket == ticket)).map (·.answer)

theorem answersTo_append (ds es : List Delivery) (ticket : Nat) :
    answersTo (ds ++ es) ticket = answersTo ds ticket ++ answersTo es ticket := by
  simp [answersTo]

/-- One delivery for a ticket, or none, answers nobody else. -/
theorem answersTo_toList (answer? : Option Answer) (i j : Nat) :
    answersTo ((answer?.map (Delivery.mk i)).toList) j = if i = j then answer?.toList else [] := by
  cases answer? <;> by_cases h : i = j <;> simp [answersTo, h]

/-- The fault of a computation that failed. -/
def faultOf? {α : Type} : Except Fault α → Option Fault
  | .error fault => some fault
  | .ok _ => none

theorem faultOf?_eq_some_iff {α : Type} {x : Except Fault α} {fault : Fault} :
    faultOf? x = some fault ↔ x = .error fault := by
  cases x <;> simp [faultOf?]

/-! ### What a request asks for -/

namespace Request

/-- The command that a request brings. -/
def command? : Request → Option Command
  | command c => some c
  | _ => none

/-- Whether the sender of a request waits for an answer. -/
def carriesReply : Request → Bool
  | command _ | reroute | createIndex _ | setReplicas .. | explain _ => true
  | nodesChanged _ | shardStarted _ | shardFailed _ | shutdown => false

/-- Why a request is refused on a working snapshot, if it is. -/
def refusal? (time : Instant) (s : ClusterState) : Request → Option Fault
  | createIndex index => faultOf? (s.withIndex index time)
  | setReplicas index replicas => faultOf? (s.withReplicas index replicas time)
  | _ => none

/-- What the sender of a request waits for that is not refused, if `position` commands came
before. -/
def awaited? (position : Nat) : Request → Option Awaited
  | command _ => some (.outcome position)
  | reroute => some .pass
  | createIndex _ | setReplicas .. => some .state
  | explain shard => some (.explanation shard)
  | _ => none

/-- The answer to a request: the refusal, or what `reply` has for those who wait. -/
def answer? (reply : Awaited → Answer) (time : Instant) (s : ClusterState) (position : Nat)
    (r : Request) : Option Answer :=
  match r.refusal? time s with
  | some fault => some (.fault fault)
  | none => (r.awaited? position).map reply

theorem isSome_awaited? (position : Nat) (r : Request) :
    (r.awaited? position).isSome = r.carriesReply := by
  cases r <;> rfl

variable {r : Request} {time : Instant} {s : ClusterState} {fault : Fault}

theorem carriesReply_of_refusal? (h : r.refusal? time s = some fault) :
    r.carriesReply = true := by
  cases r with
  | createIndex | setReplicas => rfl
  | _ => cases h

/-- A request that is refused leaves the working snapshot alone and brings no command. -/
theorem onState_of_refusal? (h : r.refusal? time s = some fault) :
    r.onState time s = s ∧ r.command? = none := by
  cases r with
  | createIndex index | setReplicas index replicas =>
    have herror := faultOf?_eq_some_iff.mp h
    simp only [onState, herror]
    exact ⟨rfl, rfl⟩
  | _ => cases h

theorem answer?_of_refused {reply : Awaited → Answer} {position : Nat}
    (h : r.refusal? time s = some fault) :
    r.answer? reply time s position = some (.fault fault) := by
  rw [answer?, h]

theorem answer?_of_taken {reply : Awaited → Answer} {position : Nat}
    (h : r.refusal? time s = none) :
    r.answer? reply time s position = (r.awaited? position).map reply := by
  rw [answer?, h]

/-- Every request that carries a reply has one answer, and no other has any. -/
theorem isSome_answer? (reply : Awaited → Answer) (time : Instant) (s : ClusterState)
    (position : Nat) (r : Request) :
    (r.answer? reply time s position).isSome = r.carriesReply := by
  cases h : r.refusal? time s with
  | some fault =>
    rw [answer?_of_refused h, carriesReply_of_refusal? h]
    rfl
  | none => rw [answer?_of_taken h, Option.isSome_map, isSome_awaited?]

end Request

/-! ### Folding a batch together -/

/-- The position that a caller waits for. -/
def Waiter.position? (w : Waiter) : Option Nat :=
  match w.awaited with
  | .outcome position => some position
  | _ => none

namespace Gathering

variable {g h : Gathering} {reply : Awaited → Answer} {time : Instant} {i ticket : Nat}
variable {r : Request} {batch before after : List Request} {fault : Fault}

/-- What the callers of a gathering are answered, if `reply` answers those who wait. -/
def deliveries (g : Gathering) (reply : Awaited → Answer) : List Delivery :=
  g.refused ++ g.waiters.map fun w => ⟨w.ticket, reply w.awaited⟩

/-- The wording of a reason leaves the callers and the trigger alone. -/
theorem because_eq (g : Gathering) (reason : String) : (g.because reason).refused = g.refused ∧
    (g.because reason).waiters = g.waiters ∧ (g.because reason).trigger = g.trigger := by
  unfold because
  split <;> exact ⟨rfl, rfl, rfl⟩

theorem declare_eq (g : Gathering) (ticket : Nat) (reason : String)
    (change : Except Fault ClusterState) :
    (g.declare ticket reason change).refused =
        g.refused ++ (((faultOf? change).map Answer.fault).map (Delivery.mk ticket)).toList ∧
      (g.declare ticket reason change).waiters = g.waiters ++
        ((if (faultOf? change).isSome then none else some Awaited.state).map
          (Waiter.mk ticket)).toList ∧
      (g.declare ticket reason change).trigger.commands = g.trigger.commands ++ [] := by
  cases change <;> simp [declare, faultOf?, because_eq, await]

/-- What a request adds for its sender and to the commands. -/
theorem add_eq (g : Gathering) (ticket : Nat) (r : Request) :
    let refusal? := r.refusal? g.trigger.time g.working
    let awaited? := if refusal?.isSome then none else r.awaited? g.trigger.commands.length
    (g.add ticket r).refused =
        g.refused ++ ((refusal?.map Answer.fault).map (Delivery.mk ticket)).toList ∧
      (g.add ticket r).waiters = g.waiters ++ (awaited?.map (Waiter.mk ticket)).toList ∧
      (g.add ticket r).trigger.commands = g.trigger.commands ++ r.command?.toList := by
  cases r with
  | createIndex index => exact declare_eq ..
  | setReplicas index replicas => exact declare_eq ..
  | _ => simp [add, because_eq, await, Request.refusal?, Request.command?, Request.awaited?]

theorem time_add (g : Gathering) (ticket : Nat) (r : Request) :
    (g.add ticket r).trigger.time = g.trigger.time ∧
      (g.add ticket r).working = r.onState g.trigger.time g.working := by
  have hsame : g.Holds g.working g.trigger.time g.trigger.started g.trigger.failed :=
    ⟨rfl, rfl, rfl, rfl⟩
  exact ⟨(hsame.add ticket r).time, (hsame.add ticket r).working⟩

/-- A request adds its answer, and nothing for anybody else. -/
theorem answersTo_add (g : Gathering) (reply : Awaited → Answer) (r : Request) (ticket i : Nat) :
    let refusal? := r.refusal? g.trigger.time g.working
    let awaited? := if refusal?.isSome then none else r.awaited? g.trigger.commands.length
    answersTo ((g.add ticket r).deliveries reply) i =
      (answersTo g.refused i ++ if ticket = i then (refusal?.map Answer.fault).toList else []) ++
        (answersTo (g.waiters.map fun w => ⟨w.ticket, reply w.awaited⟩) i ++
          if ticket = i then (awaited?.map reply).toList else []) := by
  intro refusal? awaited?
  obtain ⟨hrefused, hwaiters, -⟩ := add_eq g ticket r
  have hwaits : ((awaited?.map (Waiter.mk ticket)).toList.map fun w =>
      Delivery.mk w.ticket (reply w.awaited)) =
        ((awaited?.map reply).map (Delivery.mk ticket)).toList := by
    cases awaited? <;> rfl
  rw [deliveries, hrefused, hwaiters, List.map_append, hwaits, answersTo_append,
    answersTo_append, answersTo_append, answersTo_toList, answersTo_toList]

theorem answersTo_add_of_ne (hne : i ≠ ticket) (g : Gathering) (reply : Awaited → Answer)
    (r : Request) :
    answersTo ((g.add ticket r).deliveries reply) i = answersTo (g.deliveries reply) i := by
  rw [answersTo_add, if_neg hne.symm, if_neg hne.symm, List.append_nil, List.append_nil,
    deliveries, answersTo_append]

theorem answersTo_add_self (hfresh : answersTo (g.deliveries reply) ticket = []) (r : Request) :
    answersTo ((g.add ticket r).deliveries reply) ticket =
      (r.answer? reply g.trigger.time g.working g.trigger.commands.length).toList := by
  rw [deliveries, answersTo_append, List.append_eq_nil_iff] at hfresh
  rw [answersTo_add, hfresh.1, hfresh.2, if_pos rfl, if_pos rfl, List.nil_append, List.nil_append,
    Request.answer?]
  cases r.refusal? g.trigger.time g.working with
  | none => rfl
  | some fault => rfl

/-- Later requests leave the answers to earlier ones alone. -/
theorem answersTo_addAll_of_lt (hi : i < ticket) (g : Gathering) (reply : Awaited → Answer)
    (batch : List Request) :
    answersTo ((g.addAll ticket batch).deliveries reply) i = answersTo (g.deliveries reply) i := by
  induction batch generalizing g ticket with
  | nil => rfl
  | cons r batch ih =>
    rw [addAll, ih (Nat.lt_succ_of_lt hi), answersTo_add_of_ne (Nat.ne_of_lt hi)]

/-- The answer to a request is read off the snapshot and the commands that the requests before it
left. -/
theorem answersTo_addAll (hfresh : ∀ i, ticket ≤ i → answersTo (g.deliveries reply) i = [])
    (batch : List Request) (i : Nat) :
    answersTo ((g.addAll ticket batch).deliveries reply) (ticket + i) =
      (batch[i]?.bind fun r => r.answer? reply g.trigger.time
        ((batch.take i).foldl (Request.onState g.trigger.time) g.working)
        (g.trigger.commands ++ (batch.take i).filterMap Request.command?).length).toList := by
  induction batch generalizing g ticket i with
  | nil => exact hfresh _ (Nat.le_add_right ticket i)
  | cons r batch ih =>
    obtain ⟨htime, hworking⟩ := time_add g ticket r
    cases i with
    | zero =>
      show answersTo (((g.add ticket r).addAll (ticket + 1) batch).deliveries reply) ticket = _
      rw [answersTo_addAll_of_lt (Nat.lt_add_one ticket),
        answersTo_add_self (hfresh _ (Nat.le_refl ticket))]
      simp
    | succ i =>
      have hlater : ∀ j, ticket + 1 ≤ j →
          answersTo ((g.add ticket r).deliveries reply) j = [] := fun j hj => by
        rw [answersTo_add_of_ne (Nat.ne_of_gt hj), hfresh j (Nat.le_of_succ_le hj)]
      have hrest := ih hlater i
      rw [htime, hworking, (add_eq g ticket r).2.2, List.append_assoc,
        ← Request.filterMap_cons] at hrest
      have hindex : ticket + (i + 1) = ticket + 1 + i := by omega
      rw [addAll, hindex]
      exact hrest

theorem finish_eq (g : Gathering) : g.finish.refused = g.refused ∧
    g.finish.waiters = g.waiters ∧ g.finish.trigger.commands = g.trigger.commands := by
  unfold finish
  split <;> exact ⟨rfl, rfl, rfl⟩

theorem answersTo_ofBatch (s : ClusterState) (time : Instant) (batch : List Request)
    (reply : Awaited → Answer) (i : Nat) :
    answersTo ((ofBatch s time batch).deliveries reply) i =
      (batch[i]?.bind fun r => r.answer? reply time
        ((batch.take i).foldl (Request.onState time) s)
        ((batch.take i).filterMap Request.command?).length).toList := by
  let g : Gathering := { working := s, trigger := { reason := "coordinator", time } }
  obtain ⟨hrefused, hwaiters, -⟩ := finish_eq (g.addAll 0 batch)
  have hfresh : ∀ j, 0 ≤ j → answersTo (g.deliveries reply) j = [] := fun _ _ => rfl
  have hall := answersTo_addAll hfresh batch i
  rw [Nat.zero_add] at hall
  rw [deliveries, ofBatch, hrefused, hwaiters]
  exact hall

/-! ### The commands and who waits for them -/

theorem commands_addAll (g : Gathering) (ticket : Nat) (batch : List Request) :
    (g.addAll ticket batch).trigger.commands =
      g.trigger.commands ++ batch.filterMap Request.command? := by
  induction batch generalizing g ticket with
  | nil => exact (List.append_nil _).symm
  | cons r batch ih =>
    rw [addAll, ih, (add_eq g ticket r).2.2, List.append_assoc, ← Request.filterMap_cons]

theorem commands_ofBatch (s : ClusterState) (time : Instant) (batch : List Request) :
    (ofBatch s time batch).trigger.commands = batch.filterMap Request.command? := by
  rw [ofBatch, (finish_eq _).2.2, commands_addAll]
  rfl

/-- What callers wait for are the positions of the commands, each once. -/
def Numbered (g : Gathering) : Prop :=
  g.waiters.filterMap (·.position?) = List.range g.trigger.commands.length

theorem Numbered.add (hg : g.Numbered) (ticket : Nat) (r : Request) :
    (g.add ticket r).Numbered := by
  obtain ⟨-, hwaiters, hcommands⟩ := add_eq g ticket r
  rw [Numbered, hwaiters, hcommands, List.filterMap_append, hg]
  have hother : ∀ awaited? : Option Awaited, (∀ n, awaited? ≠ some (.outcome n)) →
      (awaited?.map (Waiter.mk ticket)).toList.filterMap (·.position?) = [] := by
    intro awaited? hne
    match awaited? with
    | none | some .pass | some .state | some (.explanation _) => rfl
    | some (.outcome n) => exact absurd rfl (hne n)
  cases r with
  | command c =>
    -- the command takes the next position
    simp [Request.refusal?, Request.awaited?, Request.command?, Waiter.position?,
      List.range_succ]
  | _ =>
    rw [hother _ fun n => by simp [Request.awaited?]]
    simp [Request.command?]

theorem Numbered.addAll (hg : g.Numbered) (ticket : Nat) (batch : List Request) :
    (g.addAll ticket batch).Numbered := by
  induction batch generalizing g ticket with
  | nil => exact hg
  | cons r batch ih => exact ih (hg.add ticket r) (ticket + 1)

/-- No two callers of a batch wait for the same outcome. -/
theorem nodup_positions (s : ClusterState) (time : Instant) (batch : List Request) :
    ((ofBatch s time batch).waiters.filterMap (·.position?)).Nodup := by
  have hstart : Numbered { working := s, trigger := { reason := "coordinator", time } } := rfl
  rw [ofBatch, (finish_eq _).2.1, hstart.addAll]
  exact List.nodup_range

/-! ### Requests that are refused -/

/-- Two gatherings ask the same of the pass. -/
structure Asks (g h : Gathering) : Prop where
  working : g.working = h.working
  trigger : g.trigger = h.trigger
  reasons : g.reasons = h.reasons

theorem Asks.because (hsame : g.Asks h) (reason : String) :
    (g.because reason).Asks (h.because reason) := by
  obtain ⟨hworking, htrigger, hreasons⟩ := hsame
  unfold Gathering.because
  rw [hreasons]
  split
  · exact ⟨hworking, htrigger, hreasons⟩
  · exact ⟨hworking, htrigger, rfl⟩

theorem Asks.declare (hsame : g.Asks h) (i j : Nat) (reason : String)
    (change : Except Fault ClusterState) :
    (g.declare i reason change).Asks (h.declare j reason change) := by
  have ⟨hworking, htrigger, hreasons⟩ := hsame
  cases change with
  | ok working =>
    apply Asks.because
    exact ⟨rfl, htrigger, hreasons⟩
  | error fault => exact ⟨hworking, htrigger, hreasons⟩

theorem Asks.add (hsame : g.Asks h) (i j : Nat) (r : Request) : (g.add i r).Asks (h.add j r) := by
  have ⟨hworking, htrigger, hreasons⟩ := hsame
  cases r with
  | nodesChanged members =>
    apply Asks.because
    exact ⟨congrArg (·.withMembers members) hworking, htrigger, hreasons⟩
  | shardStarted report =>
    apply Asks.because
    exact ⟨hworking, congrArg (fun t => { t with started := t.started ++ [report] }) htrigger,
      hreasons⟩
  | shardFailed report =>
    apply Asks.because
    exact ⟨hworking, congrArg (fun t => { t with failed := t.failed ++ [report] }) htrigger,
      hreasons⟩
  | command command =>
    apply Asks.because
    exact ⟨hworking, congrArg (fun t => { t with commands := t.commands ++ [command] }) htrigger,
      hreasons⟩
  | reroute =>
    apply Asks.because
    exact ⟨hworking, htrigger, hreasons⟩
  | createIndex index =>
    simp only [Gathering.add, hworking, htrigger]
    exact hsame.declare i j _ _
  | setReplicas index replicas =>
    simp only [Gathering.add, hworking, htrigger]
    exact hsame.declare i j _ _
  | explain shard => exact ⟨hworking, htrigger, hreasons⟩
  | shutdown => exact hsame

theorem Asks.addAll (hsame : g.Asks h) (i j : Nat) (batch : List Request) :
    (g.addAll i batch).Asks (h.addAll j batch) := by
  induction batch generalizing g h i j with
  | nil => exact hsame
  | cons r batch ih => exact ih (hsame.add i j r) (i + 1) (j + 1)

theorem Asks.finish (hsame : g.Asks h) : g.finish.Asks h.finish := by
  obtain ⟨hworking, htrigger, hreasons⟩ := hsame
  unfold Gathering.finish
  rw [hreasons]
  split
  · exact ⟨hworking, htrigger, hreasons⟩
  · refine ⟨hworking, ?_, rfl⟩
    rw [htrigger]

/-- A request that is refused asks nothing of the pass. -/
theorem asks_add_of_refusal? (h : r.refusal? g.trigger.time g.working = some fault)
    (ticket : Nat) : (g.add ticket r).Asks g := by
  cases r with
  | createIndex index | setReplicas index replicas =>
    have herror := faultOf?_eq_some_iff.mp h
    simp only [add, herror, declare]
    exact ⟨rfl, rfl, rfl⟩
  | _ => cases h

theorem addAll_append (g : Gathering) (ticket : Nat) (before after : List Request) :
    g.addAll ticket (before ++ after) =
      (g.addAll ticket before).addAll (ticket + before.length) after := by
  induction before generalizing g ticket with
  | nil => rfl
  | cons r before ih =>
    rw [List.cons_append, addAll, ih, addAll, List.length_cons]
    congr 1
    omega

/-- The batch without a request that is refused asks the same of the pass. -/
theorem asks_ofBatch_of_refusal? {s : ClusterState}
    (h : r.refusal? time (before.foldl (Request.onState time) s) = some fault) :
    (ofBatch s time (before ++ r :: after)).Asks (ofBatch s time (before ++ after)) := by
  let g : Gathering := { working := s, trigger := { reason := "coordinator", time } }
  have hholds := Holds.addAll (g := g) ⟨rfl, rfl, rfl, rfl⟩ 0 before
  rw [← hholds.working] at h
  have htime : (g.addAll 0 before).trigger.time = time := hholds.time
  rw [← htime] at h
  have hadd := asks_add_of_refusal? h (0 + before.length)
  refine Asks.finish ?_
  rw [addAll_append, addAll_append]
  exact hadd.addAll _ _ after

end Gathering

/-! ### Commands and their outcomes -/

/-- Executing the command in its turn gives the outcome: after the reports, the departed nodes and
the commands `earlier`. -/
def Pass.Executed (ds : List Decider) (t : Trigger) (p : Pass) (earlier : List Command)
    (command : Command) (o : CommandOutcome) : Prop :=
  ∃ l outcomes u w, intake t p = .ok () l ∧ executeAll ds earlier l = .ok outcomes u ∧
    execute ds command u = .ok o w

namespace Allocator

variable {a : Allocator} {s : ClusterState} {t : Trigger} {result : RerouteResult}

/-- The outcome of a command stands where the command does. -/
theorem exists_outcome {earlier later : List Command} {command : Command}
    (h : a.reroute s t = .ok result) (hcommands : t.commands = earlier ++ command :: later) :
    ∃ o p, result.outcomes[earlier.length]? = some o ∧ o.command = command ∧
      Pass.begin s a.settings t.time = .ok p ∧ p.Executed a.deciders t earlier command o := by
  obtain ⟨p, q, os, hbegin, hphases, rfl⟩ := exists_conclude h
  rw [outcomes_conclude]
  rw [Pass.phases_eq_intake] at hphases
  obtain ⟨⟨⟩, l, hintake, hphases⟩ := exists_of_bind_ok hphases
  obtain ⟨outcomes, k, hall, hphases⟩ := exists_of_bind_ok hphases
  obtain ⟨⟨⟩, z, -, hlast⟩ := exists_of_bind_ok hphases
  cases hlast
  rw [hcommands] at hall
  obtain ⟨first, u, o, w, hfirst, ho, hat⟩ := Pass.exists_execute_of_executeAll hall
  exact ⟨o, p, hat, Pass.command_of_execute ho, hbegin, l, first, u, w, hintake, hfirst, ho⟩

end Allocator

/-! ### The answers after the pass -/

namespace Coordinator

variable {a : Allocator} {c : Coordinator} {time : Instant} {result : RerouteResult}
variable {batch : List Request} {r : Request} {fault : Fault}

/-- How those who wait are answered once the pass has ended. -/
def reply (a : Allocator) : Except Fault RerouteResult → Awaited → Answer
  | .ok result, awaited => answer a result (result.outcomes.map some) awaited
  | .error fault, _ => .fault fault.duplicate

/-- An outcome that is taken is missed only by who waits for it. -/
theorem answer_set {outcomes : List (Option CommandOutcome)} {position : Nat} {w : Waiter}
    (h : w.position? ≠ some position) :
    answer a result (outcomes.set position none) w.awaited =
      answer a result outcomes w.awaited := by
  unfold Waiter.position? at h
  split at h
  next other hother =>
    have hne : position ≠ other := fun heq => h (congrArg some heq.symm)
    rw [hother, answer, answer, List.getElem?_set_ne hne]
  next hother =>
    cases hw : w.awaited with
    | outcome other => exact absurd hw (hother other)
    | _ => rfl

/-- Where no outcome is waited for twice, nobody misses one. -/
theorem answerAll_eq {waiters : List Waiter} (h : (waiters.filterMap (·.position?)).Nodup)
    (outcomes : List (Option CommandOutcome)) :
    answerAll a result outcomes waiters =
      waiters.map fun w => ⟨w.ticket, answer a result outcomes w.awaited⟩ := by
  induction waiters generalizing outcomes with
  | nil => rfl
  | cons w rest ih =>
    cases hposition : w.awaited with
    | outcome position =>
      have hw : w.position? = some position := by simp [Waiter.position?, hposition]
      rw [List.filterMap_cons_some hw, List.nodup_cons] at h
      have hothers : ∀ w' ∈ rest, w'.position? ≠ some position := fun w' hw' heq =>
        h.1 (List.mem_filterMap.mpr ⟨w', hw', heq⟩)
      simp only [answerAll, hposition, List.map_cons, ih h.2, List.cons.injEq, true_and]
      exact List.map_congr_left fun w' hw' => by rw [answer_set (hothers w' hw')]
    | _ =>
      have hw : w.position? = none := by simp [Waiter.position?, hposition]
      rw [List.filterMap_cons_none hw] at h
      simp only [answerAll, hposition, List.map_cons, ih h]

/-- One pass answers all who wait. -/
theorem answers_process (c : Coordinator) (time : Instant) (batch : List Request) :
    (c.process time batch).answers = (Gathering.ofBatch c.state time batch).deliveries
      (reply c.allocator (c.allocator.reroute (Gathering.ofBatch c.state time batch).working
        (Gathering.ofBatch c.state time batch).trigger)) := by
  unfold process
  cases hr : c.allocator.reroute (Gathering.ofBatch c.state time batch).working
      (Gathering.ofBatch c.state time batch).trigger with
  | error fault => simp only [hr]; rfl
  | ok result =>
    simp only [hr, answerAll_eq (Gathering.nodup_positions c.state time batch)]
    rfl

/-- The answers to one caller, read off its request, the snapshot that the request found and the
commands before it. -/
theorem answersTo_process (c : Coordinator) (time : Instant) (batch : List Request) (i : Nat) :
    answersTo (c.process time batch).answers i =
      (batch[i]?.bind fun r => r.answer?
        (reply c.allocator (c.allocator.reroute (Gathering.ofBatch c.state time batch).working
          (Gathering.ofBatch c.state time batch).trigger)) time
        ((batch.take i).foldl (Request.onState time) c.state)
        ((batch.take i).filterMap Request.command?).length).toList := by
  rw [answers_process, Gathering.answersTo_ofBatch]

/-- The result is that of the batch without the request at a position, but for the answer to that
request. -/
structure AsWithout (b rest : BatchResult) (position : Nat) : Prop where
  coordinator : b.coordinator = rest.coordinator
  publication : b.publication = rest.publication
  recoveries : b.recoveries = rest.recoveries
  fault : b.fault = rest.fault
  answers : ∀ j, answersTo b.answers (if j < position then j else j + 1) =
    answersTo rest.answers j

/-- Only the snapshot and the trigger of a batch matter for what comes of it. -/
theorem process_congr {other : List Request} (h : (Gathering.ofBatch c.state time batch).Asks
      (Gathering.ofBatch c.state time other)) :
    (c.process time batch).coordinator = (c.process time other).coordinator ∧
      (c.process time batch).publication = (c.process time other).publication ∧
      (c.process time batch).recoveries = (c.process time other).recoveries ∧
      (c.process time batch).fault = (c.process time other).fault := by
  unfold process
  simp only [h.working, h.trigger]
  cases c.allocator.reroute (Gathering.ofBatch c.state time other).working
    (Gathering.ofBatch c.state time other).trigger <;> exact ⟨rfl, rfl, rfl, rfl⟩

theorem asWithout_of_refusal? {before after : List Request}
    (h : r.refusal? time (before.foldl (Request.onState time) c.state) = some fault) :
    AsWithout (c.process time (before ++ r :: after)) (c.process time (before ++ after))
      before.length := by
  have hasks : (Gathering.ofBatch c.state time (before ++ r :: after)).Asks
      (Gathering.ofBatch c.state time (before ++ after)) := Gathering.asks_ofBatch_of_refusal? h
  obtain ⟨hcoordinator, hpublication, hrecoveries, hfault⟩ := process_congr hasks
  refine ⟨hcoordinator, hpublication, hrecoveries, hfault, fun j => ?_⟩
  rw [answersTo_process, answersTo_process, hasks.working, hasks.trigger]
  obtain ⟨hstate, hcommand⟩ := Request.onState_of_refusal? h
  split
  next hj =>
    -- the requests before the refused one
    rw [List.getElem?_append_left hj, List.getElem?_append_left hj,
      List.take_append_of_le_length (Nat.le_of_lt hj),
      List.take_append_of_le_length (Nat.le_of_lt hj)]
  next hj =>
    obtain ⟨k, rfl⟩ := Nat.exists_eq_add_of_le (Nat.le_of_not_lt hj)
    rw [Nat.add_assoc, List.getElem?_append_right (Nat.le_add_right ..),
      List.getElem?_append_right (Nat.le_add_right ..), List.take_length_add_append,
      List.take_length_add_append, Nat.add_sub_cancel_left, Nat.add_sub_cancel_left,
      List.getElem?_cons_succ, List.take_succ_cons, List.foldl_append, List.foldl_append,
      List.foldl_cons, hstate, List.filterMap_append, List.filterMap_append,
      List.filterMap_cons_none hcommand]

/-- The answers to a request that was not refused, after a pass that succeeded over what `g` holds
with the commands `earlier` before those of the request. -/
def Granted (a : Allocator) (g : Gathering) (earlier : List Command) (result : RerouteResult) :
    Request → List Answer → Prop
  | .command command, answers => ∃ o p, answers = [.outcome o] ∧
      result.outcomes[earlier.length]? = some o ∧ o.command = command ∧
      Pass.begin g.working a.settings g.trigger.time = .ok p ∧
      p.Executed a.deciders g.trigger earlier command o
  | .reroute, answers => answers = [.rerouted result.state result.changed]
  | .createIndex _, answers | .setReplicas .., answers => answers = [.state result.state]
  | .explain shard, answers =>
    (∃ e, a.explain result.state shard = .ok e ∧ answers = [.explanation e]) ∨
      (∃ fault, a.explain result.state shard = .error fault ∧ answers = [.fault fault])
  | _, answers => answers = []

/-- Every caller gets its own answer.  A request that carries a reply is answered once, wherever
it stands in its batch, and no other request is.  If it is refused it gets its own fault, and the
batch goes on as if it had not been sent.  If the pass succeeds a command gets the outcome that
executing it gave, and the others the snapshot of the pass or what is explained from it; if the
pass fails they all get its fault. -/
theorem answers_each_caller (c : Coordinator) (time : Instant) (before : List Request)
    (r : Request) (after : List Request) :
    let batch := before ++ r :: after
    let g := Gathering.ofBatch c.state time batch
    let pass := c.allocator.reroute g.working g.trigger
    let refusal? := r.refusal? time (before.foldl (Request.onState time) c.state)
    let answers := answersTo (c.process time batch).answers before.length
    answers.length = r.carriesReply.toNat ∧
    (∀ fault, refusal? = some fault → answers = [.fault fault] ∧
      AsWithout (c.process time batch) (c.process time (before ++ after)) before.length) ∧
    (∀ result, refusal? = none → pass = .ok result →
      Granted c.allocator g (before.filterMap Request.command?) result r answers) ∧
    (∀ fault, refusal? = none → pass = .error fault → r.carriesReply = true →
      answers = [.fault fault]) := by
  intro batch g pass refusal? answers
  have hanswers : answers = (r.answer? (reply c.allocator pass) time
      (before.foldl (Request.onState time) c.state)
      (before.filterMap Request.command?).length).toList := by
    show answersTo (c.process time batch).answers before.length = _
    rw [answersTo_process, List.getElem?_append_right (Nat.le_refl _), List.take_left,
      Nat.sub_self]
    rfl
  refine ⟨?_, fun fault hrefused => ⟨?_, asWithout_of_refusal? hrefused⟩,
    fun result hnone hpass => ?_, fun fault hnone hpass hreply => ?_⟩
  · rw [hanswers, Option.length_toList, Request.isSome_answer?]
    cases r.carriesReply <;> rfl
  · rw [hanswers, Request.answer?_of_refused hrefused]
    rfl
  · rw [hanswers, Request.answer?_of_taken hnone, hpass]
    cases r with
    | command command =>
      have hcommands : g.trigger.commands = before.filterMap Request.command? ++
          command :: after.filterMap Request.command? := by
        rw [Gathering.commands_ofBatch, List.filterMap_append]
        rfl
      obtain ⟨o, p, hat, hcommand, hbegin, hexecuted⟩ :=
        Allocator.exists_outcome hpass hcommands
      refine ⟨o, p, ?_, hat, hcommand, hbegin, hexecuted⟩
      simp [Request.awaited?, reply, answer, hat]
    | explain shard =>
      simp only [Granted, Request.awaited?, reply, answer, Option.map_some, Option.toList_some]
      cases hexplain : c.allocator.explain result.state shard with
      | ok e => exact .inl ⟨e, rfl, rfl⟩
      | error fault => exact .inr ⟨fault, rfl, rfl⟩
    | _ => rfl
  · rw [← Request.isSome_awaited? (before.filterMap Request.command?).length,
      Option.isSome_iff_exists] at hreply
    obtain ⟨awaited, hawaited⟩ := hreply
    rw [hanswers, Request.answer?_of_taken hnone, hpass, hawaited]
    show [Answer.fault fault.duplicate] = _
    rw [Allocator.duplicate_of_reroute hpass]

/-- A command that is carried out, a request that is refused, a command that is rejected, and a
request for a pass. -/
def mixedBatch : List Request :=
  [.command (.allocate ⟨"x", 0⟩ "b" true), .createIndex ⟨"x", 2, 0⟩,
    .command (.allocate ⟨"x", 0⟩ "c" false), .reroute]

/-- The request that is refused stands between the commands, and each caller hears of its own. -/
theorem answers_each_caller_mixed :
    let c := Coordinator.start { settings := {} } createdCluster
    let g := Gathering.ofBatch createdCluster ⟨1, 0⟩ mixedBatch
    let answers := (c.process ⟨1, 0⟩ mixedBatch).answers
    ∃ result, c.allocator.reroute g.working g.trigger = .ok result ∧
      answersTo answers 0 = [.outcome ⟨.allocate ⟨"x", 0⟩ "b" true, none⟩] ∧
      answersTo answers 1 = [.fault (.indexAlreadyExists "x")] ∧
      answersTo answers 2 =
        [.outcome ⟨.allocate ⟨"x", 0⟩ "c" false, some (.unknownNode "c")⟩] ∧
      answersTo answers 3 = [.rerouted result.state result.changed] := by
  intro c g answers
  have hrun : (c.allocator.reroute g.working g.trigger).toOption.any (fun result =>
      result.outcomes = [⟨.allocate ⟨"x", 0⟩ "b" true, none⟩,
        ⟨.allocate ⟨"x", 0⟩ "c" false, some (.unknownNode "c")⟩]) = true := by decide +kernel
  obtain ⟨result, hresult, houtcomes⟩ := exists_ok_of_any hrun
  have hfirst := (answers_each_caller c ⟨1, 0⟩ [] (.command (.allocate ⟨"x", 0⟩ "b" true))
    (mixedBatch.drop 1)).2.2.1 result rfl hresult
  have hrefused := (answers_each_caller c ⟨1, 0⟩ (mixedBatch.take 1) (.createIndex ⟨"x", 2, 0⟩)
    (mixedBatch.drop 2)).2.1 (.indexAlreadyExists "x") rfl
  have hsecond := (answers_each_caller c ⟨1, 0⟩ (mixedBatch.take 2)
    (.command (.allocate ⟨"x", 0⟩ "c" false)) (mixedBatch.drop 3)).2.2.1 result rfl hresult
  have hlast := (answers_each_caller c ⟨1, 0⟩ (mixedBatch.take 3) .reroute []).2.2.1 result rfl
    hresult
  obtain ⟨o, -, ho, hat, -⟩ := hfirst
  obtain ⟨o', -, ho', hat', -⟩ := hsecond
  rw [houtcomes] at hat hat'
  cases hat
  cases hat'
  exact ⟨result, hresult, ho, hrefused.1, ho', hlast⟩

end Coordinator

end ShardAllocation
