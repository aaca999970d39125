/-
The progress of passes that place copies.

Three numbers measure how far a pass is from an end of its placing.  A slot that is filled adds
a copy to the members, which hold so many at most.  A move off a node where copies may not stay
leaves one copy less on such nodes, for the decider that evicts a copy lets none come back.  A
move for balance goes to a node with fewer copies, by two at least, and brings down the sum of the
squared weights.  None of the three kinds of change undoes what an earlier number measures, so
their lexicographic order goes down with every change, and completed recoveries leave it alone.

* `Overfull` — the nodes that copies have to leave, and that none may go to;
* `disorder` — the three numbers;
* `disorder_completes` — completed recoveries do not change them;
* `disorder_lt_of_added`, `Moved.disorder_lt` — slots that are filled and moves bring them down;
* `disorder_places` — placing phases bring them down, or leave the view as it is.
-/
import Mathlib.Algebra.Order.BigOperators.Group.Finset
import Mathlib.Data.Prod.Lex
import Mathlib.Tactic.Linarith
import ShardAllocation.Proofs.Pass.Alike
import ShardAllocation.Proofs.Pass.Watermark
import ShardAllocation.Proofs.Routing.Weight

namespace ShardAllocation

/-- A node whose disk is not watched is not constrained. -/
theorem Decider.decision_of_watchedUsage {node : DataNode} {p : Pass} {verdict : Verdict}
    (h : watchedUsage node p = .error verdict) : verdict.decision = .yes := by
  unfold watchedUsage at h
  split at h
  · cases h
    rfl
  · split at h <;> cases h
    rfl

namespace Pass

variable {p q : Pass} {P : Policy} {ds : List Decider} {n : NodeId} {c : Copy} {node : DataNode}
variable {ch : Change}

/-! ### Nodes that copies have to leave -/

/-- The disk of the node is past the high watermark, and one of the deciders looks at it. -/
def Overfull (ds : List Decider) (p : Pass) (n : NodeId) : Prop :=
  Decider.diskThreshold ∈ ds ∧ ∃ usage, Decider.watchedUsage ⟨n, .empty⟩ p = .ok usage ∧
    p.settings.disk.highWatermark.isExceededBy usage = true

theorem overfull_congr (hsettings : q.settings = p.settings)
    (hmembers : q.state.members = p.state.members) : Overfull ds q = Overfull ds p := by
  funext n
  show (_ ∧ q.Past _ n) = (_ ∧ p.Past _ n)
  rw [past_congr hsettings hmembers, hsettings]

/-- Where some decider says that a copy may not remain, the disk is too full. -/
theorem overfull_of_remaining (hds : ds ⊆ Decider.standard) {explain : Bool}
    (h : (Decider.remaining ds c node p explain).decision = .no) : Overfull ds p node.id := by
  by_contra hroom
  have hyes : (Decider.remaining ds c node p explain).decision = .yes := by
    rw [Decider.remaining, Decider.decision_combine, Decider.worstOf_eq_yes_iff,
      List.forall_mem_map]
    intro d hd
    rcases Decider.canRemain_eq (hds hd) with rfl | hyes
    · simp only [Decider.diskThreshold]
      split
      next verdict husage => exact Decider.decision_of_watchedUsage husage
      next usage husage => rw [if_neg fun hpast => hroom ⟨hd, usage, husage, hpast⟩]
    · rw [hyes]
  rw [hyes] at h
  cases h

/-- The decider that makes copies leave lets none come. -/
theorem not_overfull_of_allocation {explain : Bool}
    (h : (Decider.allocation ds c node p explain).decision = .yes) :
    ¬ Overfull ds p node.id := by
  rintro ⟨hd, hpast⟩
  have hyes := Decider.allocation_eq_yes_iff.mp h _ hd
  rw [diskThreshold_eq_no hpast] at hyes
  cases hyes

/-- Copies leave nodes that are too full, or go to lighter ones.  They never go to a node that is
too full. -/
theorem MayMove.cases {k : NodeId} (h : MayMove ds p c n k) (hds : ds ⊆ Decider.standard) :
    ¬ Overfull ds p k ∧ (Overfull ds p n ∨ p.view.weightOn k + 2 ≤ p.view.weightOn n) := by
  obtain ⟨⟨target, htarget, hyes⟩, hwhy⟩ := h
  refine ⟨(node?_eq_some htarget).1 ▸ not_overfull_of_allocation hyes, ?_⟩
  rcases hwhy with ⟨source, hsource, hno⟩ | ⟨source, target, hsource, htarget, hless⟩
  · exact .inl ((node?_eq_some hsource).1 ▸ overfull_of_remaining hds hno)
  · rw [View.weight_of_node? hsource, View.weight_of_node? htarget] at hless
    exact .inr hless

/-! ### The measure -/

/-- As many copies as the members could hold of the declared shards, one of each. -/
def room (p : Pass) : Nat :=
  p.view.live.keys.toFinset.card * (p.state.metadata.values.flatMap (·.shardIds)).length

theorem weightOn_le (hp : p.Sound) (n : NodeId) :
    p.view.weightOn n ≤ (p.state.metadata.values.flatMap (·.shardIds)).length := by
  have hkeys : (p.view.heldOn n).keys ⊆ p.state.metadata.values.flatMap (·.shardIds) := by
    intro s hs
    obtain ⟨c, hc⟩ := Option.isSome_iff_exists.mp (SortedMap.mem_keys_iff.mp hs)
    rw [← View.copyOn?_eq] at hc
    obtain ⟨m, hm, hs⟩ := exists_mem_shardIds hp (hp.view.knows_of_copyOn? hc)
    exact List.mem_flatMap.mpr ⟨m, hm, hs⟩
  have hlength := (List.subperm_of_subset (p.view.heldOn n).nodup_keys hkeys).length_le
  refine Nat.le_trans List.countP_le_length (Nat.le_trans (Nat.le_of_eq ?_) hlength)
  rw [SortedMap.values, SortedMap.keys, List.length_map, List.length_map]

/-- The members hold no more copies than they could. -/
theorem tally_le_room (hp : p.Sound) : p.view.tally (fun _ weight => weight) ≤ p.room := by
  have hsum := Finset.sum_le_card_nsmul p.view.live.keys.toFinset p.view.weightOn _
    fun n _ => weightOn_le hp n
  rwa [nsmul_eq_mul] at hsum

/-- The copies that the members still have room for. -/
def spare (p : Pass) : Nat := p.room - p.view.tally fun _ weight => weight

open Classical in
/-- The copies on nodes that they have to leave. -/
noncomputable def overload (ds : List Decider) (p : Pass) : Nat :=
  p.view.tally fun n weight => if Overfull ds p n then weight else 0

/-- The sum of the squared weights, which is the lower the closer they are. -/
def unevenness (p : Pass) : Nat := p.view.tally fun _ weight => weight ^ 2

/-- The three numbers, the first one before the others. -/
noncomputable def disorder (ds : List Decider) (p : Pass) : ℕ ×ₗ ℕ ×ₗ ℕ :=
  toLex (p.spare, toLex (p.overload ds, p.unevenness))

/-- The numbers depend on the weights, the members and the settings alone. -/
theorem disorder_congr (hstate : q.state.members = p.state.members ∧
    q.state.metadata = p.state.metadata) (hsettings : q.settings = p.settings)
    (hlive : q.view.live = p.view.live)
    (hweights : ∀ n, q.view.weightOn n = p.view.weightOn n) : disorder ds q = disorder ds p := by
  have htally : ∀ f, q.view.tally f = p.view.tally f := View.tally_congr hlive hweights
  rw [disorder, disorder, spare, spare, room, room, unevenness, unevenness, overload, overload,
    overfull_congr hsettings hstate.1, htally, htally, htally, hlive, hstate.2]

theorem disorder_of_view (hview : q.view = p.view) (hstate : q.state = p.state)
    (hsettings : q.settings = p.settings) : disorder ds q = disorder ds p :=
  disorder_congr ⟨by rw [hstate], by rw [hstate]⟩ hsettings (by rw [hview]) fun n => by rw [hview]

theorem Alike.disorder_eq (h : p.Alike q) : disorder ds q = disorder ds p := by
  refine disorder_congr ⟨h.members, h.metadata⟩ h.settings h.live fun n => ?_
  rw [View.weightOn, View.weightOn, View.heldOn, View.heldOn, h.nodes]

/-- Completed recoveries change no weight. -/
theorem disorder_completes (h : Runs P.Completes p q) (hp : p.Sound) :
    disorder ds q = disorder ds p := by
  have hweights := h.invariant_of_sound hp
    (I := fun r => ∀ n, r.view.weightOn n = p.view.weightOn n) (fun _ => rfl) ?_
  · obtain ⟨hstate, hsettings, -, hlive⟩ := h.frame
    exact disorder_congr ⟨by rw [hstate], by rw [hstate]⟩ hsettings hlive hweights
  · intro r ch _ hr hsame hfit hguard n
    cases ch with
    | start c k =>
      exact (hr.view.consistent.weightOn_settle hfit.1 hfit.2 n).trans (hsame n)
    | _ => exact hguard.elim

/-! ### Every change makes progress -/

theorem room_eq (hstate : q.state = p.state) (hlive : q.view.live = p.view.live) :
    q.room = p.room := by
  rw [room, room, hlive, hstate]

/-- A slot that is filled leaves room for one copy less. -/
theorem disorder_lt_of_added (hq : q.Sound) (hstate : q.state = p.state)
    (hlive : q.view.live = p.view.live) (hn : p.view.isLive n = true)
    (hadded : q.view.weightOn n = p.view.weightOn n + 1)
    (hrest : ∀ k, k ≠ n → q.view.weightOn k = p.view.weightOn k) :
    disorder ds q < disorder ds p := by
  have hmore := View.tally_of_added hlive hn hrest fun _ weight => weight
  have hroom := room_eq hstate hlive
  -- the new copy still fits, so there was room for it
  have hbound := tally_le_room hq
  refine Prod.Lex.toLex_lt_toLex.mpr (.inl ?_)
  show q.room - _ < p.room - _
  omega

/-- A copy that goes to a node with fewer copies brings down the sum of the squares. -/
theorem squares_lt {a a' b b' : Nat} (ha : a' + 1 = a) (hb : b' = b + 1) (hless : b + 2 ≤ a) :
    a' ^ 2 + b' ^ 2 < a ^ 2 + b ^ 2 := by
  subst ha hb
  nlinarith

/-- From `p` to `q` one copy went from the member `n` to the member `k`. -/
structure Moved (p q : Pass) (n k : NodeId) : Prop where
  state : q.state = p.state
  settings : q.settings = p.settings
  live : q.view.live = p.view.live
  members : p.view.isLive n = true ∧ p.view.isLive k = true
  apart : n ≠ k
  source : q.view.weightOn n + 1 = p.view.weightOn n
  target : q.view.weightOn k = p.view.weightOn k + 1
  rest : ∀ m, m ≠ n → m ≠ k → q.view.weightOn m = p.view.weightOn m

namespace Moved

variable {k : NodeId}

/-- A move that begins takes the copy from one weight to the other. -/
theorem relocate (hfit : (Change.relocate c n k).Fits p.state.metadata p.view)
    (hn : p.view.isLive n = true) : Moved p ((Change.relocate c n k).apply p) n k := by
  obtain ⟨hc, hs, hempty, hk⟩ := hfit
  constructor
  case state => rfl
  case settings => rfl
  case live => exact View.live_onView p.view (.relocate c n k)
  case members => exact ⟨hn, hk⟩
  case apart => exact fun heq => by simp [← heq, hc] at hempty
  case source => exact View.weightOn_depart_source hc hs
  case target => exact View.weightOn_depart_target hc hempty
  case rest => exact fun m hn hk => View.weightOn_depart_of_ne hn hk

theorem tally_add (h : Moved p q n k) (f : NodeId → Nat → Nat) :
    q.view.tally f + (f n (p.view.weightOn n) + f k (p.view.weightOn k)) =
      p.view.tally f + (f n (q.view.weightOn n) + f k (q.view.weightOn k)) :=
  View.tally_of_moved h.live h.members.1 h.members.2 h.apart h.rest f

/-- A move leaves as much room as there was. -/
theorem spare_eq (h : Moved p q n k) : q.spare = p.spare := by
  have hall := h.tally_add fun _ weight => weight
  have hsource := h.source
  have htarget := h.target
  rw [spare, spare, room_eq h.state h.live]
  omega

open Classical in
/-- A move to a node that is not too full brings its copy out of the overload. -/
theorem overload_add (h : Moved p q n k) (hfree : ¬ Overfull ds p k) :
    q.overload ds + (if Overfull ds p n then p.view.weightOn n else 0) =
      p.overload ds + (if Overfull ds p n then q.view.weightOn n else 0) := by
  have hload := h.tally_add fun m weight => if Overfull ds p m then weight else 0
  rw [if_neg hfree, if_neg hfree] at hload
  rwa [overload, overload, overfull_congr h.settings (by rw [h.state])]

theorem unevenness_lt (h : Moved p q n k)
    (hless : p.view.weightOn k + 2 ≤ p.view.weightOn n) : q.unevenness < p.unevenness := by
  have hsquares := h.tally_add fun _ weight => weight ^ 2
  have hcloser := squares_lt h.source h.target hless
  rw [unevenness, unevenness]
  omega

/-- A move takes a copy off a node that is too full, or brings two weights closer together. -/
theorem disorder_lt (h : Moved p q n k) (hfree : ¬ Overfull ds p k)
    (hwhy : Overfull ds p n ∨ p.view.weightOn k + 2 ≤ p.view.weightOn n) :
    disorder ds q < disorder ds p := by
  classical
  have hload := h.overload_add hfree
  have hsource := h.source
  refine Prod.Lex.toLex_lt_toLex.mpr (.inr ⟨h.spare_eq, Prod.Lex.toLex_lt_toLex.mpr ?_⟩)
  by_cases hover : Overfull ds p n
  · rw [if_pos hover, if_pos hover] at hload
    exact .inl (show q.overload ds < p.overload ds by omega)
  · -- neither node is too full, so the overload stays as it is
    rw [if_neg hover, if_neg hover] at hload
    exact .inr ⟨hload, h.unevenness_lt (hwhy.resolve_left hover)⟩

end Moved

/-- A change of the placing phases makes progress, or leaves the view as it is. -/
theorem disorder_apply (hp : p.Sound) (hlive : p.AllLive) (hds : P.deciders ⊆ Decider.standard)
    (hfit : ch.Fits p.state.metadata p.view) (hguard : P.Places p ch) :
    (ch.apply p).view = p.view ∨ disorder P.deciders (ch.apply p) < disorder P.deciders p := by
  have hsound := hp.apply hfit
  have hmembers := View.live_onView p.view ch
  obtain ⟨hadmits, hplaces⟩ := hguard
  cases ch with
  | record s a => exact .inl rfl
  | relocate c n k =>
    obtain ⟨hfree, hwhy⟩ := hplaces.cases hds
    exact .inr ((Moved.relocate hfit (hlive.of_copyOn? hfit.1)).disorder_lt hfree hwhy)
  | install c n =>
    obtain ⟨-, hempty, hn⟩ := hfit
    exact .inr (disorder_lt_of_added hsound rfl hmembers hn (View.weightOn_occupy hempty)
      fun k hk => View.weightOn_occupy_of_ne hk)
  | create c n =>
    obtain ⟨-, -, -, -, hempty, hn⟩ := hfit
    exact .inr (disorder_lt_of_added hsound rfl hmembers hn
      (View.weightOn_occupy (v := p.view.queue c) hempty)
      fun k hk => View.weightOn_occupy_of_ne (v := p.view.queue c) hk)
  | _ => exact hplaces.elim

/-- The placing phases make progress, or leave the view as it is. -/
theorem disorder_places (h : Runs P.Places p q) (hp : p.Sound) (hlive : p.AllLive)
    (hds : P.deciders ⊆ Decider.standard) :
    q.view = p.view ∨ disorder P.deciders q < disorder P.deciders p := by
  refine h.invariant_of_sound hp (I := fun r => r.view = p.view ∨
    disorder P.deciders r < disorder P.deciders p) (.inl rfl) ?_
  intro r ch hrun hr hsofar hfit hguard
  obtain ⟨hstate, hsettings, -, -⟩ := hrun.frame
  rcases disorder_apply hr (hlive.runs hp hrun) hds hfit hguard with hview | hless
  · have hkept : disorder P.deciders (ch.apply r) = disorder P.deciders r :=
      disorder_of_view hview rfl rfl
    exact hsofar.imp hview.trans (hkept ▸ ·)
  · refine .inr (hsofar.elim (fun hview => ?_) hless.trans)
    rwa [disorder_of_view hview hstate hsettings] at hless

end Pass

end ShardAllocation
