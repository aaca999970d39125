/-
Rebalancing, as a run of changes.

Every move for balance is about a started copy and goes to a member that the deciders accept.
It leaves one started copy less, so the rebalancer stops only when it may not run or has no
move to make.  Because the members are tried in the order of their loads, no move is overlooked
when the first target that is not light enough ends the search.

* `exceedsSpread_iff` — the differences that call for a move;
* `nextMove?_eq_none_iff` — when there is no move to make;
* `nextMove?_spec` — what is known of the move that is chosen;
* `Balances` — the changes that the rebalancer makes;
* `rebalance_leads` — the phase ends balanced.
-/
import Mathlib.Data.List.TakeWhile
import ShardAllocation.Proofs.Pass.Placement

namespace ShardAllocation

namespace Binary

variable {negative : Bool} {significand : Nat} {exponent : Int} {x : Binary} {n k : Nat}

/-! ### Natural numbers among the others -/

/-- The order of a finite number and a natural one, over the denominator of the former. -/
theorem order?_finite_natural : order? (finite negative significand exponent) (natural n) =
    some (compare (signedNumerator negative significand exponent)
      (n * (ratio significand exponent).2)) := by
  simp [natural, order?, signedNumerator, ratio]

theorem lt_natural_iff : lt (finite negative significand exponent) (natural n) = true ↔
    signedNumerator negative significand exponent < n * (ratio significand exponent).2 := by
  rw [lt, order?_finite_natural, beq_iff_eq, Option.some_inj, Int.compare_eq_lt]

theorem natural_le_iff : le (natural n) (finite negative significand exponent) = true ↔
    n * (ratio significand exponent).2 ≤ signedNumerator negative significand exponent := by
  have horder : order? (natural n) (finite negative significand exponent) =
      some (compare (n * (ratio significand exponent).2 : Int)
        (signedNumerator negative significand exponent)) := by
    simp [natural, order?, signedNumerator, ratio]
  rw [le, lt, horder, Bool.or_eq_true, beq_iff_eq, beq_iff_eq, Option.some_inj, Option.some_inj,
    Int.compare_eq_lt, Int.compare_eq_eq]
  omega

theorem natural_le_natural_iff : le (natural n) (natural k) = true ↔ n ≤ k := by
  rw [natural.eq_1 k, natural_le_iff]
  simp [signedNumerator, ratio]

/-- A natural number is at most a number, or the number is less than it. -/
theorem natural_le_eq_not_lt (hx : x ≠ nan) : le (natural n) x = !lt x (natural n) := by
  cases x with
  | nan => exact absurd rfl hx
  | infinite negative => cases negative <;> rfl
  | finite negative significand exponent =>
    rw [Bool.eq_iff_iff, natural_le_iff, Bool.not_eq_true', ← Bool.not_eq_true, lt_natural_iff,
      Int.not_lt]

theorem natural_le_of_le (h : n ≤ k) (hk : le (natural k) x = true) :
    le (natural n) x = true := by
  cases x with
  | nan => cases hk
  | infinite negative => exact hk
  | finite negative significand exponent =>
    rw [natural_le_iff] at hk ⊢
    refine Int.le_trans ?_ hk
    exact Int.mul_le_mul_of_nonneg_right (Int.ofNat_le.mpr h) (Int.natCast_nonneg _)

/-- The larger one of a number and a natural one is one of the two. -/
theorem natural_le_max_iff (hx : x ≠ nan) :
    le (natural n) (max x (natural k)) = true ↔ n ≤ k ∨ le (natural n) x = true := by
  have hleft := natural_le_eq_not_lt (n := k) hx
  rw [lt] at hleft
  unfold max
  split
  next hless =>
    -- the number is less than the natural one, so what it exceeds the natural one exceeds too
    rw [hless] at hleft
    rw [natural_le_natural_iff, or_iff_left_of_imp fun hn => ?_]
    by_contra hnot
    rw [natural_le_of_le (Nat.le_of_not_le hnot) hn] at hleft
    cases hleft
  next other hother =>
    refine (or_iff_right_of_imp fun hn => natural_le_of_le hn ?_).symm
    rw [hleft, hother, Bool.not_eq_true', beq_eq_false_iff_ne]
    exact fun heq => other (Option.some_inj.mp heq)
  next hnone =>
    cases x with
    | nan => exact absurd rfl hx
    | infinite negative => cases hnone
    | finite negative significand exponent => cases hnone

end Binary

/-- Along a list on which a test fails for good, what passes it comes first. -/
theorem takeWhile_eq_filter {α : Type} {p : α → Bool} {l : List α}
    (h : l.Pairwise fun a b => p b = true → p a = true) : l.takeWhile p = l.filter p := by
  induction l with
  | nil => rfl
  | cons a rest ih =>
    obtain ⟨ha, hrest⟩ := List.pairwise_cons.mp h
    cases hp : p a with
    | true =>
      rw [List.takeWhile_cons_of_pos hp, List.filter_cons_of_pos hp, ih hrest]
    | false =>
      have hnone : rest.filter p = [] := List.filter_eq_nil_iff.mpr fun b hb hpb => by
        rw [ha b hb hpb] at hp
        cases hp
      rw [List.takeWhile_cons_of_neg (by simp [hp]), List.filter_cons_of_neg (by simp [hp]), hnone]

namespace Pass

variable {p : Pass} {P : Policy} {ds : List Decider} {m : BalanceMove} {c : Copy}
variable {source target : DataNode}

/-- The rebalancer may not run, or has no move to make. -/
def Balanced (ds : List Decider) (p : Pass) : Prop :=
  Decider.clusterRebalance ds p = .yes → nextMove? ds p = none

/-! ### Differences in load -/

/-- A difference calls for a move when it is two at least and exceeds the threshold. -/
theorem exceedsSpread_iff (hset : p.settings.rebalance.threshold ≠ .nan) {difference : Nat} :
    p.exceedsSpread difference = true ↔ 2 ≤ difference ∧
      Binary.lt p.settings.rebalance.threshold (Binary.natural difference) = true := by
  rw [exceedsSpread, spread, Bool.not_eq_true', ← Bool.not_eq_true,
    Binary.natural_le_max_iff hset, Binary.natural_le_eq_not_lt hset, not_or, Nat.not_le,
    Bool.not_eq_true, Bool.not_eq_false']
  rfl

/-- A difference that calls for a move is two at least, whatever the threshold. -/
theorem two_le_of_exceedsSpread {difference : Nat} (h : p.exceedsSpread difference = true) :
    2 ≤ difference := by
  by_cases hset : p.settings.rebalance.threshold = .nan
  · by_contra hless
    have hle : Binary.le (Binary.natural difference) (Binary.natural 1) = true :=
      Binary.natural_le_natural_iff.mpr (by omega)
    rw [exceedsSpread, spread, hset] at h
    simp [Binary.max, Binary.order?, hle] at h
  · exact ((exceedsSpread_iff hset).mp h).1

/-- With a difference every larger one calls for a move. -/
theorem exceedsSpread_of_le {d k : Nat} (hle : d ≤ k) (h : p.exceedsSpread d = true) :
    p.exceedsSpread k = true := by
  rw [exceedsSpread, Bool.not_eq_true', ← Bool.not_eq_true] at h ⊢
  exact fun hk => h (Binary.natural_le_of_le hle hk)

/-! ### The order of the search -/

theorem mem_byWeight {v : View} {entry : Nat × DataNode} : entry ∈ byWeight v ↔
    entry.2 ∈ v.liveNodes ∧ entry.1 = entry.2.weight := by
  rw [byWeight, mem_sortBy, List.mem_map]
  constructor
  · rintro ⟨node, hnode, rfl⟩
    exact ⟨hnode, rfl⟩
  · rintro ⟨hnode, hweight⟩
    exact ⟨entry.2, hnode, Prod.ext hweight.symm rfl⟩

theorem pairwise_byWeight (v : View) : (byWeight v).Pairwise fun a b => a.1 ≤ b.1 := by
  have htrans : ∀ a b c : Nat × DataNode, a.1 ≤ b.1 → b.1 ≤ c.1 → a.1 ≤ c.1 :=
    fun _ _ _ => Nat.le_trans
  refine pairwise_sortBy htrans (fun a b hle => ?_) (fun a b hnot => ?_) _
  · simp only [lighter, Bool.or_eq_true, decide_eq_true_eq, Bool.and_eq_true, beq_iff_eq] at hle
    omega
  · simp only [lighter, Bool.or_eq_false_iff, decide_eq_false_iff_not] at hnot
    omega

/-- The targets that are tried are all those that are light enough. -/
theorem takeWhile_byWeight (weight : Nat) :
    (byWeight p.view).takeWhile (fun target => p.exceedsSpread (weight - target.1)) =
      (byWeight p.view).filter fun target => p.exceedsSpread (weight - target.1) :=
  takeWhile_eq_filter ((pairwise_byWeight p.view).imp fun hle hexceeds =>
    exceedsSpread_of_le (Nat.sub_le_sub_left hle weight) hexceeds)

/-! ### The next move -/

theorem of_movableCopy? (hp : p.Sound) {n : NodeId} (hsource : p.view.node? n = some source)
    (h : movableCopy? ds p source target = some c) :
    (p.view.copyOn? c.shard n = some c ∧ c.state = .started) ∧
      Decider.shardRebalance ds c p = .yes ∧
      (Decider.allocation ds c target p false).decision = .yes := by
  have hyes := List.find?_some h
  simp only [Bool.and_eq_true, beq_iff_eq] at hyes
  have hmem := List.mem_of_find?_eq_some h
  exact ⟨(mem_filter_isStarted_iff hp.view.consistent hsource).mp hmem, hyes⟩

/-- The move that is chosen is between two members whose loads call for it. -/
theorem exists_of_nextMove? (h : nextMove? ds p = some m) :
    ∃ source ∈ p.view.liveNodes, ∃ target ∈ p.view.liveNodes,
      p.exceedsSpread (source.weight - target.weight) = true ∧
      ∃ c, movableCopy? ds p source target = some c ∧ m = ⟨c.shard, source.id, target.id⟩ := by
  obtain ⟨source, hsource, h⟩ := List.exists_of_findSome?_eq_some h
  obtain ⟨target, htarget, h⟩ := List.exists_of_findSome?_eq_some h
  obtain ⟨c, hc, rfl⟩ := Option.map_eq_some_iff.mp h
  obtain ⟨hsource, hweight⟩ := mem_byWeight.mp ((mem_sortBy heavier).mp hsource)
  obtain ⟨htarget, hexceeds⟩ := List.mem_filter.mp (takeWhile_byWeight source.1 ▸ htarget)
  obtain ⟨htarget, hweight'⟩ := mem_byWeight.mp htarget
  rw [hweight, hweight'] at hexceeds
  exact ⟨source.2, hsource, target.2, htarget, hexceeds, c, hc, rfl⟩

/-- There is no move to make when no member has a copy that may move to one that is light
enough. -/
theorem nextMove?_eq_none_iff : nextMove? ds p = none ↔
    ∀ source ∈ p.view.liveNodes, ∀ target ∈ p.view.liveNodes,
      p.exceedsSpread (source.weight - target.weight) = true →
        movableCopy? ds p source target = none := by
  simp only [nextMove?, takeWhile_byWeight, List.findSome?_eq_none_iff, mem_sortBy,
    List.mem_filter, Option.map_eq_none_iff, mem_byWeight]
  constructor
  · intro h source hsource target htarget hexceeds
    exact h (source.weight, source) ⟨hsource, rfl⟩ (target.weight, target)
      ⟨⟨htarget, rfl⟩, hexceeds⟩
  · rintro h source ⟨hsource, hweight⟩ target ⟨⟨htarget, hweight'⟩, hexceeds⟩
    rw [hweight, hweight'] at hexceeds
    exact h source.2 hsource target.2 htarget hexceeds

/-- A move for balance is about a started copy on one member, and another one that holds fewer
copies approves of it. -/
theorem nextMove?_spec (hp : p.Sound) (h : nextMove? ds p = some m) :
    ∃ c, c.shard = m.shard ∧ p.view.copyOn? c.shard m.source = some c ∧ c.state = .started ∧
      p.view.isLive m.target = true ∧ MayMove ds p c m.source m.target := by
  obtain ⟨source, hsource, target, htarget, hexceeds, c, hc, rfl⟩ := exists_of_nextMove? h
  obtain ⟨hsnode, -⟩ := node?_of_mem_liveNodes hsource
  obtain ⟨⟨hheld, hs⟩, -, hyes⟩ := of_movableCopy? hp hsnode hc
  obtain ⟨htnode, hlive⟩ := node?_of_mem_liveNodes htarget
  have hless := two_le_of_exceedsSpread hexceeds
  exact ⟨c, rfl, hheld, hs, hlive, ⟨target, htnode, hyes⟩,
    .inr ⟨source, target, hsnode, htnode, by omega⟩⟩

/-- Without started copies there is no move for balance. -/
theorem balanced_of_started (hp : p.Sound) (h : p.view.countInState .started = 0) :
    Balanced ds p := by
  intro _
  cases hm : nextMove? ds p with
  | none => rfl
  | some m =>
    obtain ⟨c, -, hc, hs, -⟩ := nextMove?_spec hp hm
    have hmem := (View.mem_startedCopies hp.view.consistent).mpr ⟨⟨m.source, hc⟩, hs⟩
    have hpos := List.length_pos_of_mem hmem
    rw [View.length_startedCopies] at hpos
    omega

/-! ### The loop -/

/-- The changes that the rebalancer makes: as long as it may run, the move that comes next. -/
def Balances (ds : List Decider) (p : Pass) : Change → Prop
  | .relocate c n k =>
    Decider.clusterRebalance ds p = .yes ∧ nextMove? ds p = some ⟨c.shard, n, k⟩
  | _ => False

/-- The rebalancer is one of the phases that place copies. -/
theorem Balances.places (hp : p.Sound) {ch : Change} (hfit : ch.Fits p.state.metadata p.view)
    (h : Balances P.deciders p ch) : P.Places p ch := by
  cases ch with
  | relocate c n k =>
    obtain ⟨d, hshard, hd, -, -, hmay⟩ := nextMove?_spec hp h.2
    rw [hshard] at hd
    obtain rfl : c = d := Option.some_inj.mp (hfit.1.symm.trans hd)
    exact ⟨hmay.1.accepts, hmay⟩
  | _ => exact h.elim

/-- As many moves as there are started copies are enough to find the balance. -/
theorem rebalanceUpTo_leads (hp : p.Sound) (moves : Nat) :
    Leads (Decider.sameShard ∉ P.deciders) (rebalanceUpTo P.deciders moves) p fun _ q =>
      Runs (Balances P.deciders) p q ∧
        (p.view.countInState .started ≤ moves → Balanced P.deciders q) := by
  induction moves generalizing p with
  | zero => exact leads_pure ⟨.refl, fun hnone => balanced_of_started hp (by omega)⟩
  | succ moves ih =>
    refine leads_get ?_
    split
    next hyes =>
      split
      next m hm =>
        obtain ⟨c, hshard, hc, hs, hlive, hmay⟩ := nextMove?_spec hp hm
        rw [← hshard]
        refine (relocate_leads (P := P) hp rfl hc hs hlive hmay).bind ?_
        rintro - q ⟨hempty, rfl, -⟩
        have hfit : (Change.relocate c m.source m.target).Fits p.state.metadata p.view :=
          ⟨hc, hs, hempty, hlive⟩
        have hfirst : Runs (Balances P.deciders) p _ := .single hfit ⟨hyes, by rw [hm, hshard]⟩
        refine (ih (hp.apply hfit)).mono fun _ r hr =>
          ⟨hfirst.trans hr.1, fun hle => hr.2 ?_⟩
        have hless : ((Change.relocate c m.source m.target).apply p).view.countInState .started <
            p.view.countInState .started :=
          View.countInState_started_depart hp.view.consistent hc hs hempty
        omega
      next hnone => exact leads_pure ⟨.refl, fun _ _ => hnone⟩
    next hno => exact leads_pure ⟨.refl, fun _ hyes => absurd hyes hno⟩

theorem rebalance_leads (hp : p.Sound) :
    Leads (Decider.sameShard ∉ P.deciders) (rebalance P.deciders) p fun _ q =>
      Runs (Balances P.deciders) p q ∧ Balanced P.deciders q :=
  leads_get ((rebalanceUpTo_leads hp _).mono fun _ _ hq => ⟨hq.1, hq.2 (Nat.le_refl _)⟩)

end Pass

end ShardAllocation
