/-
The placement phases, as runs of changes.

Every copy goes to a member that the deciders accept, and two copies of one shard never
meet on a node when `sameShard` is among the deciders.  That is the only way in which a
placement can fail: without this decider it may end with a fault.  A slot that is left to
wait, a replica that is not rebuilt and a copy that has to stay found no node.

* `isWorst_worstOf` — the combined answer of the deciders;
* `findNode_node` — what is known of the node that is chosen;
* `Stuck`, `Unmovable` — that there is none to choose;
* `allocateUnassigned_leads`, `replenishReplicas_leads`, `moveShards_leads` — the phases, each
  with what it leaves undone (`Waits`, `Lacks`, `Stays`) and why.
-/
import ShardAllocation.Proofs.Pass.Command
import ShardAllocation.Proofs.Pass.Growth

namespace ShardAllocation

namespace Decider

/-- The most forbidding answer among some verdicts; yes, if there are none. -/
structure IsWorst (verdicts : List Verdict) (a : Decision) : Prop where
  bound : ∀ v ∈ verdicts, v.decision.rank ≤ a.rank
  attained : a = .yes ∨ ∃ v ∈ verdicts, v.decision = a

theorem isWorst_worstOf (verdicts : List Verdict) : IsWorst verdicts (worstOf verdicts) := by
  induction verdicts with
  | nil => exact ⟨fun _ hv => absurd hv List.not_mem_nil, .inl rfl⟩
  | cons v rest ih =>
    rw [worstOf_cons]
    constructor
    case bound =>
      refine List.forall_mem_cons.mpr ⟨Decision.rank_le_worst_left _ _, fun w hw => ?_⟩
      exact Nat.le_trans (ih.bound w hw) (Decision.rank_le_worst_right _ _)
    case attained =>
      rcases Decision.worst_eq_or v.decision (worstOf rest) with heq | heq
      · exact .inr ⟨v, List.mem_cons_self, heq.symm⟩
      · rw [heq]
        exact ih.attained.imp_right fun ⟨w, hw, hworst⟩ => ⟨w, List.mem_cons_of_mem v hw, hworst⟩

/-- Where no decider says no, none of them does. -/
theorem worstOf_ne_no {verdicts : List Verdict} (h : worstOf verdicts ≠ .no) :
    ∀ v ∈ verdicts, v.decision ≠ .no := by
  intro v hv hno
  have hbound := (isWorst_worstOf verdicts).bound v hv
  rw [hno] at hbound
  exact h (Decision.eq_no_of_le_rank hbound)

/-- The deciders accept no second copy of a shard on a node. -/
theorem held_eq_none {ds : List Decider} (hds : sameShard ∈ ds) {c : Copy} {node : DataNode}
    {p : Pass} {explain : Bool} (h : (allocation ds c node p explain).decision ≠ .no) :
    node.held.get? c.shard = none := by
  rw [allocation, decision_combine] at h
  have hverdict := worstOf_ne_no h _ (List.mem_map_of_mem hds)
  cases hget : node.held.get? c.shard with
  | none => rfl
  | some existing => simp [sameShard, hget] at hverdict

end Decider

namespace Pass

variable {p q r : Pass} {P : Policy} {ds : List Decider} {s : ShardId} {n k : NodeId} {c : Copy}

/-! ### Nodes -/

theorem node?_eq_some {v : View} {node : DataNode} (h : v.node? n = some node) :
    node.id = n ∧ ∀ s, v.copyOn? s n = node.held.get? s := by
  obtain ⟨held, hget, rfl⟩ := Option.map_eq_some_iff.mp h
  refine ⟨rfl, fun s => ?_⟩
  rw [View.copyOn?, hget]
  rfl

theorem node?_of_mem_liveNodes {v : View} {node : DataNode} (h : node ∈ v.liveNodes) :
    v.node? node.id = some node ∧ v.isLive node.id = true := by
  obtain ⟨hmem, hlive⟩ := List.mem_filter.mp h
  obtain ⟨e, he, rfl⟩ := List.mem_map.mp hmem
  refine ⟨?_, hlive⟩
  rw [View.node?, SortedMap.mem_entries_iff.mp he]
  rfl

theorem mem_liveNodes {v : View} {node : DataNode} (hnode : v.node? n = some node)
    (hn : v.isLive n = true) : node ∈ v.liveNodes := by
  obtain ⟨held, hget, rfl⟩ := Option.map_eq_some_iff.mp hnode
  exact List.mem_filter.mpr
    ⟨List.mem_map.mpr ⟨(n, held), SortedMap.mem_entries_iff.mpr hget, rfl⟩, hn⟩

theorem exists_node? {v : View} (hn : v.nodes.contains n = true) :
    ∃ node, v.node? n = some node ∧ node.id = n := by
  obtain ⟨held, hheld⟩ := Option.isSome_iff_exists.mp hn
  exact ⟨⟨n, held⟩, by rw [View.node?, hheld, Option.map_some], rfl⟩

theorem mem_liveNodes_of_byWeight {v : View} {entry : Nat × DataNode} (h : entry ∈ byWeight v) :
    entry.2 ∈ v.liveNodes := by
  obtain ⟨node, hnode, rfl⟩ := List.mem_map.mp ((mem_sortBy lighter).mp h)
  exact hnode

/-- A node that accepts a copy does not hold its shard. -/
theorem Accepts.copyOn?_eq_none (h : Accepts ds p c n) (hds : Decider.sameShard ∈ ds) :
    p.view.copyOn? c.shard n = none := by
  obtain ⟨node, hnode, hno⟩ := h
  rw [(node?_eq_some hnode).2]
  exact Decider.held_eq_none hds hno

theorem tryNodes_node {seen : List NodeDecision} {nodes : List DataNode}
    (h : tryNodes ds c p seen nodes = .node n) :
    ∃ node ∈ nodes, node.id = n ∧ (Decider.allocation ds c node p false).decision = .yes := by
  induction nodes generalizing seen with
  | nil =>
    simp only [tryNodes] at h
    split at h <;> cases h
  | cons node rest ih =>
    simp only [tryNodes] at h
    split at h
    next hyes =>
      cases h
      exact ⟨node, List.mem_cons_self, rfl, hyes⟩
    next =>
      obtain ⟨other, hmem, hrest⟩ := ih h
      exact ⟨other, List.mem_cons_of_mem node hmem, hrest⟩

/-- The node that is found is a member, and every decider approves of the copy there. -/
theorem findNode_node {excluded : Option NodeId} (h : findNode ds c excluded p = .node n) :
    p.view.isLive n = true ∧ Approves ds p c n := by
  obtain ⟨node, hmem, rfl, hyes⟩ := tryNodes_node h
  obtain ⟨entry, hentry, rfl⟩ := List.mem_map.mp (List.mem_filter.mp hmem).1
  obtain ⟨hnode, hlive⟩ := node?_of_mem_liveNodes (mem_liveNodes_of_byWeight hentry)
  exact ⟨hlive, entry.2, hnode, hyes⟩

/-! ### Nothing to choose -/

/-- No node is found for the copy. -/
def Stuck (ds : List Decider) (p : Pass) (c : Copy) (excluded : Option NodeId) : Prop :=
  ∀ n, findNode ds c excluded p ≠ .node n

/-- If the copy may not remain on the node, no other one is found for it. -/
def Unmovable (ds : List Decider) (p : Pass) (n : NodeId) (c : Copy) : Prop :=
  ∀ node, p.view.node? n = some node → (Decider.remaining ds c node p false).decision = .no →
    Stuck ds p c (some n)

/-- The slot waits for good: its data is lost, or at some point no node was found for it. -/
def Waits (P : Policy) (p q : Pass) (c : Copy) : Prop :=
  isLostPrimary c = true ∨ Once P p q (Stuck P.deciders · c none)

/-- If the shard lacks a replica, at some point no node was found for one more. -/
def Lacks (P : Policy) (p q : Pass) (s : ShardId) : Prop :=
  q.view.slotCount s < q.state.metadata.capacity s →
    ∃ info, Once P p q (Stuck P.deciders · (Copy.newUnassigned s false info) none)

/-- If the started copy is on the node, at some point it could not be moved off. -/
def Stays (P : Policy) (p q : Pass) (n : NodeId) (c : Copy) : Prop :=
  q.view.copyOn? c.shard n = some c → c.state = .started →
    Once P p q (Unmovable P.deciders · n c)

theorem Waits.trans (h : Waits P p q c) (hmore : Runs P.Places q r) : Waits P p r c :=
  h.imp_right fun honce => honce.trans hmore

theorem Lacks.trans (h : Lacks P p q s) (hq : q.Sound) (hmore : Runs P.Places q r) :
    Lacks P p r s := by
  intro hroom
  have hgrown := hmore.grown hq
  rw [hgrown.state] at hroom
  obtain ⟨info, honce⟩ := h (Nat.lt_of_le_of_lt (hgrown.view.slots s) hroom)
  exact ⟨info, honce.trans hmore⟩

theorem Stays.trans (h : Stays P p q n c) (hq : q.Sound) (hmore : Runs P.Places q r) :
    Stays P p r n c := by
  intro hc hs
  have hbefore := ((hmore.grown hq).view.layout c.shard).of_started hc hs
  exact (h hbefore hs).trans hmore

theorem Lacks.after (h : Lacks P q r s) (hearlier : Runs P.Places p q) : Lacks P p r s := by
  intro hroom
  obtain ⟨info, honce⟩ := h hroom
  exact ⟨info, honce.after hearlier⟩

theorem Stays.after (h : Stays P q r n c) (hearlier : Runs P.Places p q) : Stays P p r n c :=
  fun hc hs => (h hc hs).after hearlier

/-! ### Single placements -/

/-- A waiting slot is filled on a node that the deciders approve of. -/
theorem install_leads (hp : p.Sound) (hds : P.deciders = ds) (hmem : c ∈ p.view.unassigned)
    (hlive : p.view.isLive n = true) (happroves : Approves ds p c n)
    (hlost : isLostPrimary c = false) :
    Leads (Decider.sameShard ∉ ds) (mutate (View.place c n)) p fun _ q =>
      q = (Change.install c n).apply p ∧ Runs P.Places p q := by
  cases hn : p.view.copyOn? c.shard n with
  | none =>
    subst hds
    exact place_leads hp hmem hn hlive
      ⟨⟨happroves.accepts, fun heq => by rw [hlost] at heq; cases heq⟩, happroves⟩
  | some d =>
    -- the node holds a copy already, which `sameShard` would have refused
    refine leads_mutate_of_fails
      (View.place_fails hmem (hp.view.consistent.waiting c hmem) hn) fun hmem => ?_
    rw [happroves.accepts.copyOn?_eq_none hmem] at hn
    cases hn

/-- A started copy moves to a node, if there is reason to. -/
theorem relocate_leads (hp : p.Sound) (hds : P.deciders = ds)
    (hc : p.view.copyOn? c.shard n = some c) (hs : c.state = .started)
    (hlive : p.view.isLive k = true) (hmay : MayMove ds p c n k) :
    Leads (Decider.sameShard ∉ ds) (mutate (View.relocate c.shard n k)) p fun _ q =>
      p.view.copyOn? c.shard k = none ∧ q = (Change.relocate c n k).apply p ∧
        Runs P.Places p q := by
  have hv := hp.view.consistent
  cases hk : p.view.copyOn? c.shard k with
  | none =>
    have hmay : MayMove P.deciders p c n k := hds ▸ hmay
    exact (leads_change (G := P.Places) (.relocate c n k) .refl (View.relocate_eq hv hc hs hk)
      rfl ⟨hc, hs, hk, hlive⟩ ⟨hmay.1.accepts, hmay⟩).mono fun _ q hq => ⟨rfl, hq.2, hq.1⟩
  | some d =>
    refine leads_mutate_of_fails (View.relocate_fails hv hc hs hk) fun hmem => ?_
    rw [hmay.1.accepts.copyOn?_eq_none hmem] at hk
    cases hk

/-- A new replica is created on a node that the deciders approve of: the two mutations make one
change. -/
theorem create_leads (hds : P.deciders = ds) {info : UnassignedInfo}
    (hc : c = Copy.newUnassigned s false info)
    (hroom : p.view.slotCount s < p.state.metadata.capacity s) (hlive : p.view.isLive n = true)
    (happroves : Approves ds p c n) :
    Leads (Decider.sameShard ∉ ds) (mutate (View.addUnassigned c) >>= fun _ =>
      mutate (View.place c n)) p fun _ q =>
        p.view.copyOn? s n = none ∧ q = (Change.create c n).apply p ∧ Runs P.Places p q := by
  subst hc hds
  have hmem : Copy.newUnassigned s false info ∈
      (p.view.queue (Copy.newUnassigned s false info)).unassigned :=
    List.mem_append_right _ (List.mem_singleton_self _)
  refine (leads_mutate (Q := fun _ q =>
    q = { p with view := p.view.queue (Copy.newUnassigned s false info) })
    (View.addUnassigned_eq rfl) rfl).bind ?_
  rintro - q rfl
  cases hn : p.view.copyOn? s n with
  | none =>
    have hfit : (Change.create (Copy.newUnassigned s false info) n).Fits p.state.metadata
        p.view := ⟨rfl, Copy.Shaped.newUnassigned s false info, rfl, hroom, hn, hlive⟩
    exact leads_mutate (View.place_eq hmem rfl hn)
      ⟨rfl, rfl, Runs.single (G := P.Places) hfit ⟨happroves.accepts, happroves⟩⟩
  | some d =>
    refine leads_mutate_of_fails (View.place_fails hmem rfl hn) fun hmem => ?_
    have hnone := happroves.accepts.copyOn?_eq_none hmem
    have hshard : (Copy.newUnassigned s false info).shard = s := rfl
    rw [hshard, hn] at hnone
    cases hnone

/-! ### Allocation -/

theorem recordAttempt_leads {F : Prop} (hp : p.Sound) (hc : c ∈ p.view.unassigned)
    (a : Attempt) :
    Leads F (recordAttempt c.shard a) p fun _ q => q.view = p.view ∧ Runs P.Places p q := by
  have hfit : (Change.record c.shard a).Fits p.state.metadata p.view := hp.view.knows_of_mem hc
  exact leads_of_ok (a := ()) (q := (Change.record c.shard a).apply p) rfl
    ⟨rfl, Runs.single (G := P.Places) hfit ⟨trivial, trivial⟩⟩

/-- One slot is filled, and the others still wait, or no node is found for it. -/
theorem allocateCopy_leads (hp : p.Sound) (hds : P.deciders = ds) (hc : c ∈ p.view.unassigned) :
    Leads (Decider.sameShard ∉ ds) (allocateCopy ds c) p fun _ q => Runs P.Places p q ∧
      ((∃ n, q = (Change.install c n).apply p) ∨
        q.view = p.view ∧ (isLostPrimary c = true ∨ Stuck ds p c none)) := by
  unfold allocateCopy
  split
  next hlost =>
    have hlost : isLostPrimary c = false := by simpa using hlost
    refine leads_get ?_
    split
    next n hfound =>
      obtain ⟨hlive, happroves⟩ := findNode_node hfound
      refine (install_leads hp hds hc hlive happroves hlost).mono ?_
      rintro - q ⟨rfl, hruns⟩
      exact ⟨hruns, .inl ⟨n, rfl⟩⟩
    all_goals
      next _ hnone =>
        have hstuck : Stuck ds p c none := fun n hn => by
          rw [hnone] at hn
          cases hn
        refine (recordAttempt_leads (P := P) hp hc _).mono ?_
        rintro - q ⟨hview, hruns⟩
        exact ⟨hruns, .inr ⟨hview, .inr hstuck⟩⟩
  next hlost =>
    have hlost : isLostPrimary c = true := by simpa using hlost
    exact leads_pure ⟨.refl, .inr ⟨rfl, .inl hlost⟩⟩

/-- What the loop over the slots keeps: those that are left and those that were dealt with
are the slots that wait. -/
structure Allocating (P : Policy) (p : Pass) (rest : List Copy) (q : Pass) : Prop where
  runs : Runs P.Places p q
  waiting : ∃ done, q.view.unassigned.Perm (rest ++ done) ∧ ∀ d ∈ done, Waits P p q d

theorem Allocating.step {rest : List Copy} (h : Allocating P p (c :: rest) q)
    (hmore : Runs P.Places q r)
    (hdone : (∃ n, r = (Change.install c n).apply q) ∨
      r.view = q.view ∧ (isLostPrimary c = true ∨ Stuck P.deciders q c none)) :
    Allocating P p rest r := by
  obtain ⟨done, hperm, hwaits⟩ := h.waiting
  refine ⟨h.runs.trans hmore, ?_⟩
  rcases hdone with ⟨n, rfl⟩ | ⟨hsame, hleft⟩
  · refine ⟨done, ?_, fun d hd => (hwaits d hd).trans hmore⟩
    have herase := hperm.erase c
    rwa [List.cons_append, List.erase_cons_head] at herase
  · refine ⟨c :: done, ?_, fun d hd => ?_⟩
    · rw [hsame]
      exact hperm.trans List.perm_middle.symm
    · rcases List.mem_cons.mp hd with rfl | hd
      · exact hleft.imp_right fun hstuck => ⟨q, h.runs, hmore, hstuck⟩
      · exact (hwaits d hd).trans hmore

/-- The slots that still wait after the allocation wait for good. -/
theorem allocateUnassigned_leads (hp : p.Sound) :
    Leads (Decider.sameShard ∉ P.deciders) (allocateUnassigned P.deciders) p fun _ q =>
      Runs P.Places p q ∧ ∀ c ∈ q.view.unassigned, Waits P p q c := by
  refine leads_get ?_
  have hsorted := (perm_sortBy allocationOrder p.view.unassigned).symm
  refine (leads_forM (I := Allocating P p)
    ⟨.refl, [], by rwa [List.append_nil], fun d hd => absurd hd List.not_mem_nil⟩ ?_).mono ?_
  · intro c rest q hq
    obtain ⟨done, hperm, -⟩ := hq.waiting
    have hmem : c ∈ q.view.unassigned := hperm.mem_iff.mpr List.mem_cons_self
    exact (allocateCopy_leads (hq.runs.sound hp) rfl hmem).mono fun _ r hr =>
      hq.step hr.1 hr.2
  · rintro - q ⟨hruns, done, hperm, hwaits⟩
    exact ⟨hruns, fun c hc => hwaits c (hperm.mem_iff.mp hc)⟩

/-! ### Replenishment -/

theorem slotCount_create (hp : p.Sound) (info : UnassignedInfo)
    (hn : p.view.copyOn? s n = none) :
    ((Change.create (Copy.newUnassigned s false info) n).apply p).view.slotCount s =
      p.view.slotCount s + 1 := by
  have hmem : Copy.newUnassigned s false info ∈
      (p.view.queue (Copy.newUnassigned s false info)).unassigned :=
    List.mem_append_right _ (List.mem_singleton_self _)
  have hqueued : (p.view.queue (Copy.newUnassigned s false info)).Consistent :=
    hp.view.consistent.queue rfl
  have hoccupy := View.roleCount_occupy (n := n) hqueued hmem hn s fun _ => true
  rw [View.roleCount_queue] at hoccupy
  rw [View.slotCount_eq, View.slotCount_eq]
  refine Eq.trans ?_ (hoccupy.trans ?_)
  · rfl
  · simp [Copy.share, Copy.newUnassigned]

/-- All the missing replicas are rebuilt, or no node is found for one more.  Unless one is rebuilt
nothing changes. -/
theorem replenishShard_leads (hp : p.Sound) (hds : P.deciders = ds) {missing : Nat}
    (hroom : p.view.slotCount s + missing ≤ p.state.metadata.capacity s) :
    Leads (Decider.sameShard ∉ ds) (replenishShard ds s missing) p fun _ q =>
      Runs P.Places p q ∧
        (q = p ∨ ∃ c n, Runs P.Places ((Change.create c n).apply p) q) ∧
        (p.view.slotCount s + missing ≤ q.view.slotCount s ∨
          ∃ info, Stuck ds q (Copy.newUnassigned s false info) none) := by
  induction missing generalizing p with
  | zero => exact leads_pure ⟨.refl, .inl rfl, .inl (Nat.le_refl _)⟩
  | succ missing ih =>
    refine leads_get ?_
    simp only
    split
    next n hfound =>
      obtain ⟨hlive, happroves⟩ := findNode_node hfound
      have hcreate := create_leads (s := s) (P := P) hds rfl (by omega) hlive happroves
      refine leads_assoc (hcreate.bind ?_)
      rintro - q ⟨hn, rfl, hruns⟩
      -- one more slot, and one less that is missing
      have hcount := slotCount_create hp (p.unassignedInfo .replicaAdded none) hn
      refine (ih (hruns.sound hp) ?_).mono ?_
      · rw [hruns.frame.1]
        omega
      · rintro - r ⟨hmore, -, hdone⟩
        exact ⟨hruns.trans hmore, .inr ⟨_, n, hmore⟩, hdone.imp_left fun hle => by omega⟩
    next hnone => exact leads_pure ⟨.refl, .inl rfl, .inr ⟨_, fun n hn => hnone n hn⟩⟩

/-- The shards of a declared index may have as many slots as the index asks for. -/
theorem capacity_of_mem {m : IndexMetadata} (hp : p.Sound)
    (hm : m ∈ p.state.metadata.values) (hs : s ∈ m.shardIds) :
    p.state.metadata.capacity s = m.copiesPerShard := by
  obtain ⟨name, hget⟩ := SortedMap.mem_values_iff.mp hm
  obtain ⟨i, hi, rfl⟩ := List.mem_map.mp hs
  obtain rfl := hp.keyed hget
  have hknown : p.state.metadata.knows ⟨m.name, i⟩ = true := by
    simpa [Metadata.knows, hget] using List.mem_range.mp hi
  rw [Metadata.capacity, if_pos hknown, hget]
  rfl

theorem exists_mem_shardIds (hp : p.Sound) (hs : p.state.metadata.knows s = true) :
    ∃ m ∈ p.state.metadata.values, s ∈ m.shardIds := by
  cases hm : p.state.metadata.get? s.index with
  | none => simp [Metadata.knows, hm] at hs
  | some m =>
    have hnumber : s.number < m.shards := by simpa [Metadata.knows, hm] using hs
    refine ⟨m, SortedMap.mem_values_iff.mpr ⟨s.index, hm⟩, ?_⟩
    exact List.mem_map.mpr ⟨s.number, List.mem_range.mpr hnumber, by rw [hp.keyed hm]⟩

/-- The shards that still lack replicas after the replenishment find no node for them. -/
theorem replenishReplicas_leads (hp : p.Sound) :
    Leads (Decider.sameShard ∉ P.deciders) (replenishReplicas P.deciders) p fun _ q =>
      Runs P.Places p q ∧ ∀ s, Lacks P p q s := by
  refine leads_get ((leads_forM_each (I := fun q => Runs P.Places p q)
    (D := fun m q => ∀ s ∈ m.shardIds, Lacks P p q s) .refl ?_).mono ?_)
  · intro m hm q hq
    have hinner : Leads (Decider.sameShard ∉ P.deciders) (m.shardIds.forM fun s => do
        replenishShard P.deciders s (m.copiesPerShard - (← get).view.slotCount s)) q fun _ r =>
          (Runs P.Places p r ∧ Runs P.Places q r) ∧ ∀ s ∈ m.shardIds, Lacks P p r s := by
      refine leads_forM_each (I := fun r => Runs P.Places p r ∧ Runs P.Places q r)
        (D := fun s r => Lacks P p r s) ⟨hq, .refl⟩ ?_
      rintro s hs r ⟨hpr, hqr⟩
      refine leads_get ?_
      have hr := hpr.sound hp
      have hcapacity : r.state.metadata.capacity s = m.copiesPerShard := by
        rw [hpr.frame.1]
        exact capacity_of_mem hp hm hs
      have hroom := hr.view.room s
      refine (replenishShard_leads (P := P) hr rfl (by omega)).mono ?_
      rintro - u ⟨hmore, -, hdone⟩
      refine ⟨⟨hpr.trans hmore, hqr.trans hmore⟩, fun hlacks => ?_, fun t _ hlacks =>
        hlacks.trans hr hmore⟩
      rw [hmore.frame.1, hcapacity] at hlacks
      rcases hdone with hfull | ⟨info, hstuck⟩
      · omega
      · exact ⟨info, once_last (hpr.trans hmore) hstuck⟩
    refine hinner.mono ?_
    rintro - r ⟨⟨hpr, hqr⟩, hlacks⟩
    exact ⟨hpr, hlacks, fun k _ hk s hs => (hk s hs).trans (hq.sound hp) hqr⟩
  · rintro - q ⟨hq, hlacks⟩
    refine ⟨hq, fun s hroom => ?_⟩
    have hknown := Metadata.knows_of_capacity_pos (Nat.zero_lt_of_lt hroom)
    rw [hq.frame.1] at hknown
    obtain ⟨m, hm, hs⟩ := exists_mem_shardIds hp hknown
    exact hlacks m hm s hs hroom

/-! ### Moves off nodes -/

theorem mem_filter_isStarted_iff {v : View} (h : v.Consistent) {node : DataNode}
    (hnode : v.node? n = some node) : c ∈ node.copies.filter (·.isStarted) ↔
      v.copyOn? c.shard n = some c ∧ c.state = .started := by
  rw [List.mem_filter, View.copies_of_node? hnode, View.mem_values_heldOn h, Copy.isStarted,
    beq_iff_eq]

/-- What the loop over the started copies of a node keeps: those that are left are of
different shards, and still there. -/
structure MovesFrom (P : Policy) (n : NodeId) (p : Pass) (copies : List Copy) (q : Pass) :
    Prop where
  runs : Runs P.Places p q
  nodup : (copies.map (·.shard)).Nodup
  started : ∀ c ∈ copies, q.view.copyOn? c.shard n = some c ∧ c.state = .started

/-- One copy has begun to move, or it may remain, or no node is found for it. -/
theorem moveCopy_leads {rest : List Copy} (hp : p.Sound) (hds : P.deciders = ds)
    (hq : MovesFrom P n p (c :: rest) q) :
    Leads (Decider.sameShard ∉ ds) (moveCopy ds n c) q fun _ r => MovesFrom P n p rest r ∧
      Runs P.Places q r ∧ (r.view.copyOn? c.shard n ≠ some c ∨ Unmovable ds r n c) := by
  have hsound := hq.runs.sound hp
  obtain ⟨hc, hs⟩ := hq.started c List.mem_cons_self
  obtain ⟨hfresh, hnodup⟩ := List.nodup_cons.mp hq.nodup
  have hstay : MovesFrom P n p rest q :=
    ⟨hq.runs, hnodup, fun d hd => hq.started d (List.mem_cons_of_mem c hd)⟩
  refine leads_get ?_
  split
  next hnode =>
    refine leads_pure ⟨hstay, .refl, .inr fun node hget => ?_⟩
    rw [hnode] at hget
    cases hget
  next node hnode =>
    have hunmovable : ((Decider.remaining ds c node q false).decision = .no →
        Stuck ds q c (some n)) → Unmovable ds q n c := fun h other hget => by
      rw [hnode, Option.some_inj] at hget
      exact hget ▸ h
    split
    next hno =>
      split
      next k hfound =>
        obtain ⟨hlive, happroves⟩ := findNode_node hfound
        have hmay : MayMove ds q c n k := ⟨happroves, .inl ⟨node, hnode, hno⟩⟩
        refine (relocate_leads (P := P) hsound hds hc hs hlive hmay).mono ?_
        rintro - r ⟨-, rfl, hmore⟩
        refine ⟨⟨hq.runs.trans hmore, hnodup, fun d hd => ?_⟩, hmore, .inl ?_⟩
        · -- the copies that are left are of other shards
          have hne : d.shard ≠ c.shard := fun heq =>
            hfresh (List.mem_map.mpr ⟨d, hd, heq⟩)
          obtain ⟨hget, hstarted⟩ := hq.started d (List.mem_cons_of_mem c hd)
          have hother : ((q.view.depart n k c).copyOn? d.shard) = q.view.copyOn? d.shard :=
            View.copyOn?_depart_of_ne hne
          exact ⟨(congrFun hother n).trans hget, hstarted⟩
        · have hmoved := congrFun (View.layout_depart q.view n k c) n
          rw [Layout.depart, if_pos rfl] at hmoved
          intro hsame
          have hdeparting := Option.some_inj.mp (hmoved.symm.trans hsame)
          rw [← hdeparting] at hs
          cases hs
      next hnone => exact leads_pure ⟨hstay, .refl, .inr (hunmovable fun _ k hk => hnone k hk)⟩
    next hremains =>
      exact leads_pure ⟨hstay, .refl, .inr (hunmovable fun hno => absurd hno hremains)⟩

/-- The loop over the started copies of a node. -/
theorem moveFrom_leads (hp : p.Sound) {node : DataNode} (hnode : p.view.node? n = some node) :
    Leads (Decider.sameShard ∉ P.deciders)
      ((node.copies.filter (·.isStarted)).forM (moveCopy P.deciders n)) p fun _ q =>
        Runs P.Places p q ∧ ∀ c, Stays P p q n c := by
  have hv := hp.view.consistent
  have hstarted : ∀ {c}, c ∈ node.copies.filter (·.isStarted) ↔
      p.view.copyOn? c.shard n = some c ∧ c.state = .started :=
    mem_filter_isStarted_iff hv hnode
  have hnodup : ((node.copies.filter (·.isStarted)).map (·.shard)).Nodup := by
    rw [View.copies_of_node? hnode]
    exact (List.filter_sublist.map _).nodup (View.nodup_shard_values_heldOn hv n)
  refine (leads_forM (I := fun rest q => MovesFrom P n p rest q ∧
    ∀ c ∈ node.copies.filter (·.isStarted), c ∈ rest ∨ Stays P p q n c)
    ⟨⟨.refl, hnodup, fun c hc => hstarted.mp hc⟩, fun c hc => .inl hc⟩ ?_).mono ?_
  · rintro c rest q ⟨hq, hdone⟩
    refine (moveCopy_leads hp rfl hq).mono ?_
    rintro - r ⟨hr, hmore, hc⟩
    refine ⟨hr, fun d hd => ?_⟩
    rcases hdone d hd with hmem | hstays
    · rcases List.mem_cons.mp hmem with rfl | hmem
      · -- the copy has begun to move, or it has to stay
        refine .inr fun hsame _ => ?_
        rcases hc with hmoved | hunmovable
        · exact absurd hsame hmoved
        · exact once_last hr.runs hunmovable
      · exact .inl hmem
    · exact .inr (hstays.trans (hq.runs.sound hp) hmore)
  · rintro - q ⟨hq, hstays⟩
    refine ⟨hq.runs, fun c hc hs => ?_⟩
    have hbefore := ((hq.runs.grown hp).view.layout c.shard).of_started hc hs
    exact (hstays c (hstarted.mpr ⟨hbefore, hs⟩)).resolve_left List.not_mem_nil hc hs

/-- The started copies that are on members after the moves have to stay there. -/
theorem moveShards_leads (hp : p.Sound) :
    Leads (Decider.sameShard ∉ P.deciders) (moveShards P.deciders) p fun _ q =>
      Runs P.Places p q ∧ ∀ n c, q.view.isLive n = true → Stays P p q n c := by
  refine leads_get ((leads_forM_each (I := fun q => Runs P.Places p q)
    (D := fun n q => ∀ c, Stays P p q n c) .refl ?_).mono ?_)
  · intro n _ q hq
    refine leads_get ?_
    have hsound := hq.sound hp
    cases hnode : q.view.node? n with
    | none =>
      refine leads_pure ⟨hq, fun c hc => ?_, fun _ _ h => h⟩
      -- a node that is not in the view holds no copy
      obtain ⟨node, hnode', -⟩ := exists_node? (View.contains_nodes_of_copyOn? hc)
      rw [hnode] at hnode'
      cases hnode'
    | some node =>
      refine (moveFrom_leads (P := P) hsound hnode).mono ?_
      rintro - r ⟨hmore, hstays⟩
      exact ⟨hq.trans hmore, fun c => (hstays c).after hq, fun k _ hk c =>
        (hk c).trans hsound hmore⟩
  · rintro - q ⟨hq, hstays⟩
    refine ⟨hq, fun n c hlive hc hs => hstays n ?_ c hc hs⟩
    have hbefore := ((hq.grown hp).view.layout c.shard).of_started hc hs
    obtain ⟨node, hnode, hid⟩ := exists_node? (View.contains_nodes_of_copyOn? hbefore)
    rw [hq.isLive_eq] at hlive
    exact List.mem_map.mpr ⟨node, mem_liveNodes hnode hlive, hid⟩

end Pass

end ShardAllocation
