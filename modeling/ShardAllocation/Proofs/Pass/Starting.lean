/-
Reports of completed recoveries, in any order and any number.

A report counts if the copy that it names initializes.  Completing a copy takes no other copy
away that initializes, for the source of a move does not, and it makes no copy initialize.  So
whether a report counts the first time that it comes can be read off the view before all of them,
and later on it does not count any more.  The view after the reports depends on which reports
there are; their order shows in the order of the noted steps only.

* `Copy.afterReports` — what the reports make of one copy;
* `Completed` — the view after some reports, described by the view before and their set;
* `cons_of_idle`, `cons_of_initializing` — one more report, which counts or does not;
* `Completed.unique` — the same reports in any order, the same view up to the noted steps;
* `forM_applyStarted_completed` — the phase that takes them in.
-/
import ShardAllocation.Proofs.Pass.Leads
import ShardAllocation.Proofs.Routing.Lockstep

namespace ShardAllocation

/-- What the reports make of the copy of the shard on the node: it is complete, gone or as
before. -/
def Copy.afterReports (c : Copy) (s : ShardId) (n : NodeId) (reports : List StartedReport) :
    Option Copy :=
  match c.state with
  | .initializing => if ⟨s, n⟩ ∈ reports then some c.settled else some c
  | .relocating => if c.peer.any fun k => ⟨s, k⟩ ∈ reports then none else some c
  | _ => some c

namespace View

/-- The copy that the report names initializes. -/
def Initializes (v : View) (r : StartedReport) : Prop :=
  ∃ c, v.copyOn? r.shard r.node = some c ∧ c.state = .initializing

theorem any_isInitializing_iff {v : View} {r : StartedReport} :
    (v.copyOn? r.shard r.node).any (·.isInitializing) = true ↔ v.Initializes r := by
  unfold Initializes
  cases v.copyOn? r.shard r.node <;> simp [Copy.isInitializing]

/-- The second view is the first one after some reports. -/
structure Completed (v : View) (reports : List StartedReport) (w : View) : Prop where
  consistent : w.Consistent
  layout : ∀ s n, w.copyOn? s n = (v.copyOn? s n).bind fun c => c.afterReports s n reports
  nodes : ∀ n, w.nodes.contains n = v.nodes.contains n
  live : w.live = v.live
  departed : w.departed = v.departed
  unassigned : w.unassigned = v.unassigned
  /-- Every report that counts is noted once. -/
  noted : ∃ ts, w.transitions = v.transitions ++ ts ∧ ts.Nodup ∧
    ∀ t, t ∈ ts ↔ ∃ r ∈ reports, v.Initializes r ∧ t = .started r.shard r.node

variable {v w u : View} {r : StartedReport} {reports others : List StartedReport} {s : ShardId}
variable {n k : NodeId} {c : Copy}

/-- A copy that one more report does not concern stays as the others left it. -/
theorem afterReports_cons
    (hself : c.state = .initializing → (⟨s, n⟩ : StartedReport) = r → r ∈ reports)
    (hpeer : ∀ k, c.state = .relocating → c.peer = some k →
      (⟨s, k⟩ : StartedReport) = r → r ∈ reports) :
    c.afterReports s n (r :: reports) = c.afterReports s n reports := by
  have hsame : ∀ k, ((⟨s, k⟩ : StartedReport) = r → r ∈ reports) →
      ((⟨s, k⟩ : StartedReport) ∈ r :: reports ↔ ⟨s, k⟩ ∈ reports) := fun k hk =>
    ⟨fun hmem => (List.mem_cons.mp hmem).elim (fun heq => heq ▸ hk heq) id,
      List.mem_cons_of_mem r⟩
  unfold Copy.afterReports
  split
  next hstate => simp only [hsame n (hself hstate)]
  next hstate =>
    cases hp : c.peer with
    | none => rfl
    | some k => simp only [Option.any_some, hsame k (hpeer k hstate hp)]
  next => rfl

/-- A report of a copy that does not initialize changes nothing. -/
theorem afterReports_cons_of_idle (hv : v.Consistent) (hidle : v.Initializes r → r ∈ reports)
    (hc : v.copyOn? s n = some c) :
    c.afterReports s n (r :: reports) = c.afterReports s n reports := by
  refine afterReports_cons (fun hstate heq => ?_) fun k hstate hp heq => ?_
  · subst heq
    exact hidle ⟨c, hc, hstate⟩
  · -- the target of a copy that moves initializes
    obtain ⟨j, d, hj, -, hd, hinit, -⟩ := (hv.linked s).target hc hstate
    obtain rfl : k = j := Option.some_inj.mp (hp.symm.trans hj)
    subst heq
    exact hidle ⟨d, hd, hinit⟩

namespace Completed

theorem refl (h : v.Consistent) : v.Completed [] v where
  consistent := h
  layout s n := by
    cases hc : v.copyOn? s n with
    | none => rfl
    | some c => cases hstate : c.state <;> simp [Copy.afterReports, hstate]
  nodes _ := rfl
  live := rfl
  departed := rfl
  unassigned := rfl
  noted := ⟨[], (List.append_nil _).symm, .nil, by simp⟩

/-- The copies that initialize after some reports are those that did so before and were not
reported. -/
theorem initializing_iff (h : v.Completed reports w) :
    (w.copyOn? s n = some c ∧ c.state = .initializing) ↔
      (v.copyOn? s n = some c ∧ c.state = .initializing) ∧ ⟨s, n⟩ ∉ reports := by
  rw [h.layout, Option.bind_eq_some_iff]
  constructor
  · rintro ⟨⟨d, hd, hafter⟩, hstate⟩
    unfold Copy.afterReports at hafter
    split at hafter
    next =>
      split at hafter <;> cases hafter
      next => cases hstate
      next hnot _ => exact ⟨⟨hd, hstate⟩, hnot⟩
    next hrel =>
      split at hafter <;> cases hafter
      rw [hrel] at hstate
      cases hstate
    next hne _ =>
      cases hafter
      exact absurd hstate hne
  · rintro ⟨⟨hc, hstate⟩, hnot⟩
    exact ⟨⟨c, hc, by simp [Copy.afterReports, hstate, hnot]⟩, hstate⟩

/-- A report that does not count. -/
theorem cons_of_idle (h : v.Completed reports w) (hv : v.Consistent) (hidle : ¬ w.Initializes r) :
    v.Completed (r :: reports) w := by
  have hcounts : v.Initializes r → r ∈ reports := by
    rintro ⟨c, hc, hstate⟩
    by_contra hnot
    obtain ⟨hc, hstate⟩ := h.initializing_iff.mpr ⟨⟨hc, hstate⟩, hnot⟩
    exact hidle ⟨c, hc, hstate⟩
  obtain ⟨ts, hts, hnodup, hmem⟩ := h.noted
  refine { h with layout := fun s n => ?_, noted := ⟨ts, hts, hnodup, fun t => ?_⟩ }
  · rw [h.layout]
    refine Option.bind_congr fun c hc => ?_
    exact (afterReports_cons_of_idle hv hcounts hc).symm
  · rw [hmem, List.exists_mem_cons_iff]
    refine (or_iff_right_of_imp ?_).symm
    rintro ⟨hinit, rfl⟩
    exact ⟨r, hcounts hinit, hinit, rfl⟩

/-- The layouts after a report that counts. -/
theorem layout_cons (h : v.Completed reports w) (hv : v.Consistent)
    (hc : v.copyOn? r.shard r.node = some c) (hstate : c.state = .initializing) (s : ShardId)
    (n : NodeId) : (w.settle r.node c).copyOn? s n =
      (v.copyOn? s n).bind fun d => d.afterReports s n (r :: reports) := by
  obtain ⟨hshard, -⟩ := hv.own hc
  by_cases hs : s = r.shard
  · subst hs
    rw [← hshard, layout_settle, hshard, Layout.settle]
    split
    next hn =>
      -- the copy itself
      subst hn
      rw [hc, Option.bind_some]
      simp [Copy.afterReports, hstate]
    next hn =>
      split
      next hp =>
        -- the source of its move
        obtain ⟨d, hd, hrel, hback⟩ := (hv.linked r.shard).source hc hstate hp
        rw [hd, Option.bind_some]
        simp [Copy.afterReports, hrel, hback]
      next hp =>
        rw [h.layout]
        refine Option.bind_congr fun d hd => (afterReports_cons ?_ ?_).symm
        · rintro - heq
          exact absurd (congrArg StartedReport.node heq) hn
        · rintro k hrel hk heq
          -- a copy that moves to the node would be the source
          obtain ⟨j, e, hj, -, he, -, hback, -⟩ := (hv.linked r.shard).target hd hrel
          obtain rfl : k = j := Option.some_inj.mp (hk.symm.trans hj)
          obtain rfl : k = r.node := congrArg StartedReport.node heq
          obtain rfl : c = e := Option.some_inj.mp (hc.symm.trans he)
          exact absurd hback hp
  · rw [copyOn?_settle_of_ne (hshard ▸ hs), h.layout]
    refine Option.bind_congr fun d _ => (afterReports_cons ?_ ?_).symm
    · rintro - heq
      exact absurd (congrArg StartedReport.shard heq) hs
    · rintro k - - heq
      exact absurd (congrArg StartedReport.shard heq) hs

/-- A report that counts completes the copy. -/
theorem cons_of_initializing (h : v.Completed reports w) (hv : v.Consistent)
    (hc : w.copyOn? r.shard r.node = some c) (hstate : c.state = .initializing) :
    v.Completed (r :: reports) ((w.settle r.node c).noted (.started r.shard r.node)) := by
  obtain ⟨⟨hbefore, -⟩, hnew⟩ := h.initializing_iff.mp ⟨hc, hstate⟩
  obtain ⟨hshard, -⟩ := hv.own hbefore
  have hframe := sameFrame_settle w r.node c
  constructor
  case consistent => exact (h.consistent.settle (hshard ▸ hc)).noted _
  case layout => exact h.layout_cons hv hbefore hstate
  case nodes =>
    intro n
    rw [← h.nodes n, Bool.eq_iff_iff]
    exact ⟨NodesIn.settle (fun _ hk => hk) h.consistent (hshard ▸ hc) n,
      Covers.settle (fun _ hk => hk) r.node c n⟩
  case live => exact hframe.live.trans h.live
  case departed => exact (departed_settle w r.node c).trans h.departed
  case unassigned => exact hframe.unassigned.trans h.unassigned
  case noted =>
    obtain ⟨ts, hts, hnodup, hmem⟩ := h.noted
    refine ⟨ts ++ [.started r.shard r.node], ?_, ?_, fun t => ?_⟩
    · show (w.settle r.node c).transitions ++ _ = _
      rw [hframe.transitions, hts, List.append_assoc]
    · refine hnodup.append (List.nodup_singleton _) (List.disjoint_singleton.mpr fun hin => ?_)
      -- the step would come from an earlier report of the copy
      obtain ⟨r', hr', -, heq⟩ := (hmem _).mp hin
      injection heq with hs hn
      exact hnew (by rwa [hs, hn])
    · rw [List.mem_append, hmem, List.mem_singleton, List.exists_mem_cons_iff, or_comm]
      exact or_congr_left ⟨fun heq => ⟨⟨c, hbefore, hstate⟩, heq⟩, And.right⟩

/-- The same reports leave the same view, up to the order in which the steps are noted. -/
theorem unique (h : v.Completed reports w) (h' : v.Completed others u)
    (hsame : ∀ r, r ∈ others ↔ r ∈ reports) :
    ∃ ts us, w.transitions = v.transitions ++ ts ∧ u = w.noting (v.transitions ++ us) ∧
      ts.Perm us ∧ ∀ t ∈ ts, ∃ s n, t = .started s n := by
  obtain ⟨ts, hts, hnodup, hmem⟩ := h.noted
  obtain ⟨us, hus, hnodup', hmem'⟩ := h'.noted
  have hcopies : u.copyOn? = w.copyOn? := by
    funext s n
    rw [h.layout, h'.layout]
    refine Option.bind_congr fun c _ => ?_
    simp only [Copy.afterReports, hsame]
  have hnodes : u.nodes = w.nodes :=
    nodes_eq (fun n => (h'.nodes n).trans (h.nodes n).symm) hcopies
  have hholders := h'.consistent.indexed.holders_eq h.consistent.indexed hcopies
  have hlive : u.live = w.live := h'.live.trans h.live.symm
  have hdeparted : u.departed = w.departed := h'.departed.trans h.departed.symm
  have hwaiting : u.unassigned = w.unassigned := h'.unassigned.trans h.unassigned.symm
  refine ⟨ts, us, hts, ?_, ?_, fun t ht => ?_⟩
  · rw [View.noting, ← hus, ← hnodes, ← hholders, ← hlive, ← hdeparted, ← hwaiting]
  · refine (List.perm_ext_iff_of_nodup hnodup hnodup').mpr fun t => ?_
    simp only [hmem, hmem', hsame]
  · obtain ⟨r, -, -, rfl⟩ := (hmem t).mp ht
    exact ⟨r.shard, r.node, rfl⟩

end Completed

end View

namespace Pass

open View (any_isInitializing_iff)

variable {p : Pass} {v : View} {reports : List StartedReport}

theorem applyStarted_completed (hv : v.Consistent) (h : v.Completed reports p.view)
    (r : StartedReport) :
    ∃ w, applyStarted r p = .ok () { p with view := w } ∧ v.Completed (r :: reports) w := by
  by_cases hinit : (p.view.copyOn? r.shard r.node).any (·.isInitializing) = true
  · obtain ⟨c, hc, hstate⟩ := any_isInitializing_iff.mp hinit
    refine ⟨_, ?_, h.cons_of_initializing hv hc hstate⟩
    rw [applyStarted, bind_ok (get_eq p)]
    simp only [hinit, if_true, mutate, View.start_eq h.consistent hc hstate]
  · refine ⟨p.view, ?_, h.cons_of_idle hv fun h' => hinit (any_isInitializing_iff.mpr h')⟩
    rw [applyStarted, bind_ok (get_eq p)]
    simp only [hinit]
    rfl

/-- The reports are taken in one after the other. -/
theorem forM_applyStarted_completed (hv : v.Consistent) (started : List StartedReport) :
    ∀ {p : Pass} {reports : List StartedReport}, v.Completed reports p.view →
      ∃ w, started.forM applyStarted p = .ok () { p with view := w } ∧
        v.Completed (started.reverse ++ reports) w := by
  induction started with
  | nil => exact fun {p} _ h => ⟨p.view, rfl, h⟩
  | cons r rest ih =>
    intro p reports h
    obtain ⟨w, hfirst, hw⟩ := applyStarted_completed hv h r
    obtain ⟨u, hrest, hu⟩ := ih (p := { p with view := w }) hw
    refine ⟨u, ?_, ?_⟩
    · show (applyStarted r >>= fun _ => rest.forM applyStarted) p = _
      rw [bind_ok hfirst, hrest]
    · rw [List.reverse_cons, List.append_assoc]
      exact hu

end Pass

end ShardAllocation
