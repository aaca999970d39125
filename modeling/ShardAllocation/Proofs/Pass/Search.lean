/-
The search for a node, and the full answers about all nodes.

A search asks about the candidates in their order and stops at the first one that accepts the
copy.  Of the answer about a node it hears the verdicts up to the first no, and it keeps those
that do not say yes.  Nothing is lost on the way: the outcome of the search, down to the verdicts
that are recorded, can be read off the answers of all deciders about all candidates.

* `brief_allocation` — what a search keeps of the full answer about a node;
* `Decision.best_eq_yes_iff`, `best_eq_throttle_iff`, `best_eq_no_iff` — the best of some answers;
* `findNode_eq` — the outcome of a search;
* `perm_candidates`, `pairwise_candidates` — the candidates and their order.
-/
import ShardAllocation.Proofs.Pass.Balance
import ShardAllocation.Proofs.Routing.Weight

namespace ShardAllocation

/-! ### The answer about one node -/

/-- The verdicts that do not say yes, up to the first no. -/
def NodeDecision.brief (d : NodeDecision) : NodeDecision :=
  let forbidding := d.verdicts.filter fun v => v.decision != .yes
  { d with
    verdicts := (forbidding.takeWhile fun v => v.decision != .no) ++
      (forbidding.find? fun v => v.decision == .no).toList }

namespace Decider

theorem upToNo_eq (verdicts : List Verdict) :
    upToNo verdicts = (verdicts.takeWhile fun v => v.decision != .no) ++
      (verdicts.find? fun v => v.decision == .no).toList := by
  induction verdicts with
  | nil => rfl
  | cons v rest ih =>
    by_cases hv : v.decision = .no
    · simp [upToNo, hv]
    · simp [upToNo, hv, ih]

/-- Verdicts that say yes can be left out first. -/
theorem filter_upToNo (verdicts : List Verdict) :
    (upToNo verdicts).filter (fun v => v.decision != .yes) =
      upToNo (verdicts.filter fun v => v.decision != .yes) := by
  induction verdicts with
  | nil => rfl
  | cons v rest ih =>
    cases hv : v.decision <;> simp [upToNo, hv, ih]

/-- A search hears of a node what the full answer says in brief. -/
theorem brief_allocation (ds : List Decider) (c : Copy) (n : DataNode) (p : Pass) :
    (allocation ds c n p true).brief = allocation ds c n p false := by
  have hdecision : (allocation ds c n p true).decision = (allocation ds c n p false).decision := by
    rw [allocation, allocation, decision_combine, decision_combine]
  rw [NodeDecision.brief, hdecision]
  simp only [allocation, combine, if_true, Bool.false_eq_true, if_false]
  rw [filter_upToNo, upToNo_eq (List.filter _ _)]

end Decider

/-! ### The answers about all nodes -/

namespace Decision

variable {answers : List Decision}

theorem best_eq_yes_iff : best answers = yes ↔ yes ∈ answers := by
  have key : ∀ (l : List Decision) (d : Decision),
      l.foldl (fun a b => if a.rank ≤ b.rank then a else b) d = yes ↔ d = yes ∨ yes ∈ l := by
    intro l
    induction l with
    | nil => simp
    | cons a rest ih =>
      intro d
      rw [List.foldl_cons, ih, List.mem_cons, ← or_assoc]
      refine or_congr_left ?_
      cases d <;> cases a <;> decide
  exact (key answers no).trans (or_iff_right (by decide))

theorem best_eq_no_iff : best answers = no ↔ ∀ a ∈ answers, a = no := by
  have key : ∀ (l : List Decision) (d : Decision),
      l.foldl (fun a b => if a.rank ≤ b.rank then a else b) d = no ↔
        d = no ∧ ∀ a ∈ l, a = no := by
    intro l
    induction l with
    | nil => simp
    | cons a rest ih =>
      intro d
      rw [List.foldl_cons, ih, List.forall_mem_cons, ← and_assoc]
      refine and_congr_left fun _ => ?_
      cases d <;> cases a <;> decide
  exact (key answers no).trans (and_iff_right rfl)

theorem best_eq_throttle_iff : best answers = throttle ↔ yes ∉ answers ∧ throttle ∈ answers := by
  have hyes : best answers = yes ↔ yes ∈ answers := best_eq_yes_iff
  have hno : best answers = no ↔ ∀ a ∈ answers, a = no := best_eq_no_iff
  cases hbest : best answers with
  | yes =>
    have hmem := hyes.mp hbest
    simp [hmem]
  | throttle =>
    rw [hbest] at hyes hno
    refine iff_of_true rfl ⟨fun hmem => absurd (hyes.mpr hmem) (by decide), ?_⟩
    -- some answer is not no, and none is yes
    by_contra hnot
    refine absurd (hno.mpr fun a ha => ?_) (by decide)
    cases a with
    | yes => exact absurd (hyes.mpr ha) (by decide)
    | throttle => exact absurd ha hnot
    | no => rfl
  | no =>
    have hall := hno.mp hbest
    refine iff_of_false (by decide) fun h => absurd (hall _ h.2) (by decide)

end Decision

namespace Placement

/-- What comes of a search, given the answers about the candidates in their order. -/
def ofAnswers (answers : List NodeDecision) : Placement :=
  match answers.find? fun d => d.decision == .yes with
  | some d => .node d.node
  | none =>
    if answers.any fun d => d.decision == .throttle then .deferred answers else .refused answers

variable {answers seen : List NodeDecision} {n : NodeId}

theorem ofAnswers_eq_node_iff : ofAnswers answers = .node n ↔
    (answers.find? fun d => d.decision == .yes).map (·.node) = some n := by
  unfold ofAnswers
  split
  next d hd => simp [hd]
  next hnone =>
    rw [hnone]
    split <;> simp

theorem ofAnswers_of_yes (h : Decision.best (answers.map (·.decision)) = .yes) :
    ∃ n, ofAnswers answers = .node n := by
  obtain ⟨d, hd, hyes⟩ := List.mem_map.mp (Decision.best_eq_yes_iff.mp h)
  have hsome : (answers.find? fun d => d.decision == .yes).isSome = true :=
    List.find?_isSome.mpr ⟨d, hd, beq_iff_eq.mpr hyes⟩
  obtain ⟨e, he⟩ := Option.isSome_iff_exists.mp hsome
  exact ⟨e.node, ofAnswers_eq_node_iff.mpr (by rw [he, Option.map_some])⟩

theorem find?_yes_eq_none (h : ∀ d ∈ answers, d.decision ≠ .yes) :
    (answers.find? fun d => d.decision == .yes) = none :=
  List.find?_eq_none.mpr fun d hd hyes => h d hd (beq_iff_eq.mp hyes)

theorem find?_eq_none_of_best {d : Decision} (h : Decision.best (answers.map (·.decision)) = d)
    (hd : d ≠ .yes) : (answers.find? fun d => d.decision == .yes) = none :=
  find?_yes_eq_none fun e he hyes => hd <| h.symm.trans <|
    Decision.best_eq_yes_iff.mpr (List.mem_map.mpr ⟨e, he, hyes⟩)

theorem ofAnswers_of_throttle (h : Decision.best (answers.map (·.decision)) = .throttle) :
    ofAnswers answers = .deferred answers := by
  obtain ⟨d, hd, hthrottle⟩ := List.mem_map.mp (Decision.best_eq_throttle_iff.mp h).2
  have hany : answers.any (fun d => d.decision == .throttle) = true :=
    List.any_eq_true.mpr ⟨d, hd, beq_iff_eq.mpr hthrottle⟩
  have hnone := find?_eq_none_of_best h (by decide)
  simp only [ofAnswers, hnone, hany, if_true]

theorem ofAnswers_of_no (h : Decision.best (answers.map (·.decision)) = .no) :
    ofAnswers answers = .refused answers := by
  have hany : answers.any (fun d => d.decision == .throttle) = false :=
    List.any_eq_false.mpr fun d hd => by
      rw [Decision.best_eq_no_iff.mp h _ (List.mem_map_of_mem hd)]
      decide
  have hnone := find?_eq_none_of_best h (by decide)
  simp only [ofAnswers, hnone, hany, Bool.false_eq_true, if_false]

theorem exists_ofAnswers_eq_node_iff : (∃ n, ofAnswers answers = .node n) ↔
    Decision.best (answers.map (·.decision)) = .yes := by
  cases hbest : Decision.best (answers.map (·.decision)) with
  | yes => exact iff_of_true (ofAnswers_of_yes hbest) rfl
  | throttle => simp [ofAnswers_of_throttle hbest]
  | no => simp [ofAnswers_of_no hbest]

theorem ofAnswers_eq_deferred_iff : ofAnswers answers = .deferred seen ↔
    Decision.best (answers.map (·.decision)) = .throttle ∧ seen = answers := by
  cases hbest : Decision.best (answers.map (·.decision)) with
  | yes =>
    obtain ⟨n, hn⟩ := ofAnswers_of_yes hbest
    simp [hn]
  | throttle => simp [ofAnswers_of_throttle hbest, eq_comm]
  | no => simp [ofAnswers_of_no hbest]

theorem ofAnswers_eq_refused_iff : ofAnswers answers = .refused seen ↔
    Decision.best (answers.map (·.decision)) = .no ∧ seen = answers := by
  cases hbest : Decision.best (answers.map (·.decision)) with
  | yes =>
    obtain ⟨n, hn⟩ := ofAnswers_of_yes hbest
    simp [hn]
  | throttle => simp [ofAnswers_of_throttle hbest]
  | no => simp [ofAnswers_of_no hbest, eq_comm]

end Placement

namespace Pass

variable {p : Pass} {ds : List Decider} {c : Copy} {v : View}

theorem tryNodes_eq {seen : List NodeDecision} (hseen : ∀ d ∈ seen, d.decision ≠ .yes)
    (nodes : List DataNode) : tryNodes ds c p seen nodes =
      .ofAnswers (seen ++ nodes.map fun n => Decider.allocation ds c n p false) := by
  induction nodes generalizing seen with
  | nil =>
    rw [tryNodes, Placement.ofAnswers, List.map_nil, List.append_nil,
      Placement.find?_yes_eq_none hseen]
  | cons n rest ih =>
    simp only [tryNodes]
    split
    next hyes =>
      have hfind : (seen ++ (n :: rest).map fun n => Decider.allocation ds c n p false).find?
          (fun d => d.decision == .yes) = some (Decider.allocation ds c n p false) := by
        rw [List.find?_append, Placement.find?_yes_eq_none hseen, List.map_cons,
          List.find?_cons_of_pos (by simp [hyes])]
        rfl
      rw [Placement.ofAnswers, hfind]
      rfl
    next hno =>
      have hmore : ∀ d ∈ seen ++ [Decider.allocation ds c n p false], d.decision ≠ .yes := by
        intro d hd
        rcases List.mem_append.mp hd with hd | hd
        · exact hseen d hd
        · exact List.mem_singleton.mp hd ▸ hno
      rw [ih hmore, List.append_assoc]
      rfl

/-- The outcome of a search that leaves out no node. -/
theorem findNode_eq (ds : List Decider) (c : Copy) (p : Pass) : findNode ds c none p =
    .ofAnswers ((candidates p.view).map fun n => Decider.allocation ds c n p false) := by
  have hall : (candidates p.view).filter (fun n => none != some n.id) = candidates p.view :=
    List.filter_eq_self.mpr fun n _ => rfl
  rw [findNode, hall, tryNodes_eq fun _ h => absurd h List.not_mem_nil, List.nil_append]

/-! ### The candidates -/

/-- A node is tried before another one: it keeps fewer copies, or as many and its name comes
first. -/
def TriedBefore (v : View) (n k : NodeId) : Prop :=
  v.weightOn n < v.weightOn k ∨ v.weightOn n = v.weightOn k ∧ compare n k = .lt

theorem perm_candidates (v : View) : (candidates v).Perm v.liveNodes := by
  have hperm := (perm_sortBy lighter (v.liveNodes.map fun n => (n.weight, n))).map (·.2)
  rw [List.map_map] at hperm
  exact hperm.trans (.of_eq (List.map_id _))

theorem nodup_liveNodes (v : View) : (v.liveNodes.map (·.id)).Nodup := by
  have hall : v.allNodes.map (·.id) = v.nodes.keys := by
    rw [View.allNodes, List.map_map]
    rfl
  have hnodup := v.nodes.nodup_keys
  rw [← hall] at hnodup
  exact (List.filter_sublist.map _).nodup hnodup

theorem pairwise_lighter (v : View) :
    (byWeight v).Pairwise fun a b => lighter a b = true := by
  refine pairwise_sortBy (fun a b c hab hbc => ?_) (fun a b hab => hab) (fun a b hab => ?_) _
  · simp only [lighter, Bool.or_eq_true, decide_eq_true_eq, Bool.and_eq_true, beq_iff_eq] at *
    rcases hab with hab | ⟨hab, hid⟩
    · omega
    · rcases hbc with hbc | ⟨hbc, hid'⟩
      · omega
      · exact .inr ⟨hab.trans hbc, Std.TransCmp.isLE_trans hid hid'⟩
  · simp only [lighter, Bool.or_eq_false_iff, decide_eq_false_iff_not, Bool.and_eq_false_imp,
      beq_iff_eq] at hab
    simp only [lighter, Bool.or_eq_true, decide_eq_true_eq, Bool.and_eq_true, beq_iff_eq]
    by_cases heq : a.1 = b.1
    · refine .inr ⟨heq.symm, ?_⟩
      have hgt := hab.2 heq
      have hswap : compare b.2.id a.2.id = (compare a.2.id b.2.id).swap := Std.OrientedCmp.eq_swap
      rw [hswap]
      cases hcompare : compare a.2.id b.2.id <;> simp_all
    · omega

/-- The order in which the candidates are tried. -/
theorem pairwise_candidates (v : View) :
    (candidates v).Pairwise fun n k => TriedBefore v n.id k.id := by
  have hnodup : ((byWeight v).map (·.2.id)).Nodup := by
    have hperm := (perm_candidates v).map (·.id)
    rw [candidates, List.map_map] at hperm
    exact hperm.nodup_iff.mpr (nodup_liveNodes v)
  have hboth := (pairwise_lighter v).and (List.pairwise_map.mp hnodup)
  refine List.pairwise_map.mpr (hboth.imp_of_mem fun {a b} ha hb hab => ?_)
  obtain ⟨hlighter, hne⟩ := hab
  obtain ⟨hlive, hweight⟩ := mem_byWeight.mp ha
  obtain ⟨hlive', hweight'⟩ := mem_byWeight.mp hb
  rw [View.weight_of_node? (node?_of_mem_liveNodes hlive).1] at hweight
  rw [View.weight_of_node? (node?_of_mem_liveNodes hlive').1] at hweight'
  simp only [lighter, Bool.or_eq_true, decide_eq_true_eq, Bool.and_eq_true, beq_iff_eq] at hlighter
  rw [TriedBefore, ← hweight, ← hweight']
  refine hlighter.imp_right fun h => ⟨h.1, ?_⟩
  cases hcompare : compare a.2.id b.2.id with
  | lt => rfl
  | eq => exact absurd (Std.LawfulEqCmp.eq_of_compare hcompare) hne
  | gt =>
    rw [hcompare] at h
    cases h.2

end Pass

end ShardAllocation
