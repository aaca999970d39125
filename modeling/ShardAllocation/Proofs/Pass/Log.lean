/-
The log of a pass.

Every change notes what it does to the copies, and the notes are all there is to know: replayed
in order on the layout of a shard before a run of changes, they give the layout after it.

* `Layout.replay` — what one noted step makes of a layout;
* `Change.notes` — what a change notes, with `transitions_onView` and `replay_onView`;
* `Runs.replay` — the log of a whole run;
* `Runs.exists_placed` — a copy that the log says was placed was placed by a change, made on
  a view whose log ends right before.
-/
import ShardAllocation.Proofs.Pass.Change

namespace ShardAllocation

namespace Layout

/-- The layout of a shard after a noted step.  Steps of other shards leave it alone. -/
def replay (s : ShardId) (f : Layout) (t : Transition) : Layout :=
  if t.shard = s then
    match t with
    | .initialized shard n primary _ =>
      f.fill n { shard, primary, state := .initializing, node := some n }
    | .started _ n => (f n).elim f (f.settle n)
    | .relocationStarted _ n target _ => (f n).elim f (f.depart n target)
    | .relocationCancelled _ n _ => (f n).elim f (f.settle n)
    | .unassigned _ n _ => (f n).elim f (f.vacate n)
    | .promoted _ n => (f n).elim f (f.promote n)
    | .dropped _ n => (f n).elim f (f.vacate n)
  else f

variable {s : ShardId} {f : Layout} {n : NodeId} {c : Copy} {log : List Transition}

theorem replay_of_ne {t : Transition} (h : t.shard ≠ s) : f.replay s t = f := if_neg h

theorem foldl_replay_of_ne (h : ∀ t ∈ log, t.shard ≠ s) : log.foldl (replay s) f = f := by
  induction log with
  | nil => rfl
  | cons t rest ih =>
    rw [List.foldl_cons, replay_of_ne (h t List.mem_cons_self)]
    exact ih fun u hu => h u (List.mem_cons_of_mem t hu)

end Layout

namespace View

/-- What is noted when the best replica takes over. -/
def promotions (v : View) (s : ShardId) : List Transition :=
  match v.bestReplica? s with
  | some r => [.promoted s (r.node.getD "")]
  | none => []

end View

/-- What a change notes. -/
def Change.notes (v : View) : Change → List Transition
  | start c n => [.started c.shard n]
  | cancel c n => [.relocationCancelled c.shard n (c.peer.getD "")]
  | relocate c n target => [.relocationStarted c.shard n target c.primary]
  | release c n info => [.unassigned c.shard n info.reason]
  | surrender c n info =>
    .unassigned c.shard n info.reason :: (v.release n c info).promotions c.shard
  | handOver c n =>
    .dropped c.shard n :: ((v.vacate n c).noted (.dropped c.shard n)).promotions c.shard
  | install c n => [.initialized c.shard n c.primary ((v.occupy n c).recoverySource c)]
  | create c n =>
    [.initialized c.shard n c.primary (((v.queue c).occupy n c).recoverySource c)]
  | forget _ => []
  | record _ _ => []

namespace View

variable {v : View} {s t : ShardId} {n : NodeId} {m : Metadata} {ch : Change}

/-! ### What is noted -/

theorem transitions_takeOver (v : View) (s : ShardId) :
    (v.takeOver s).transitions = v.transitions ++ v.promotions s := by
  unfold takeOver promotions
  cases v.bestReplica? s with
  | none => exact (List.append_nil _).symm
  | some r =>
    have hframe := (sameFrame_promote v (r.node.getD "") r).transitions
    exact congrArg (· ++ [Transition.promoted s (r.node.getD "")]) hframe

theorem transitions_release (v : View) (n : NodeId) (c : Copy) (info : UnassignedInfo) :
    (v.release n c info).transitions = v.transitions ++ [.unassigned c.shard n info.reason] :=
  congrArg (· ++ _) (sameFrame_vacate v n c).transitions

/-- A change adds its notes to the log. -/
theorem transitions_onView (v : View) (ch : Change) :
    (ch.onView v).transitions = v.transitions ++ ch.notes v := by
  cases ch with
  | start c n => exact congrArg (· ++ _) (sameFrame_settle v n c).transitions
  | cancel c n => exact congrArg (· ++ _) (sameFrame_settle v n c).transitions
  | relocate c n target => exact congrArg (· ++ _) (sameFrame_depart v n target c).transitions
  | release c n info => exact transitions_release v n c info
  | surrender c n info =>
    refine (transitions_takeOver ..).trans ?_
    rw [transitions_release, List.append_assoc]
    rfl
  | handOver c n =>
    have hdropped : ((v.vacate n c).noted (.dropped c.shard n)).transitions =
        v.transitions ++ [.dropped c.shard n] :=
      congrArg (· ++ _) (sameFrame_vacate v n c).transitions
    refine (transitions_takeOver ..).trans ?_
    rw [hdropped, List.append_assoc]
    rfl
  | install c n => rfl
  | create c n => rfl
  | forget n => exact (List.append_nil _).symm
  | record s a => exact (List.append_nil _).symm

theorem shard_of_mem_promotions {u : Transition} (h : u ∈ v.promotions s) : u.shard = s := by
  unfold promotions at h
  split at h
  · rw [List.mem_singleton.mp h]
    rfl
  · cases h

/-- The notes of a change are about its shard. -/
theorem shard_of_mem_notes {u : Transition} (h : u ∈ ch.notes v) :
    ch.shard? = some u.shard := by
  cases ch with
  | surrender c n info =>
    rcases List.mem_cons.mp h with rfl | h
    · rfl
    · rw [shard_of_mem_promotions h]
      rfl
  | handOver c n =>
    rcases List.mem_cons.mp h with rfl | h
    · rfl
    · rw [shard_of_mem_promotions h]
      rfl
  | forget n => cases h
  | record s a => cases h
  | _ =>
    rw [List.mem_singleton.mp h]
    rfl

/-- A change that notes that a copy was placed notes nothing else. -/
theorem notes_of_initialized_mem {primary : Bool} {source : Option NodeId}
    (h : .initialized s n primary source ∈ ch.notes v) :
    ch.notes v = [.initialized s n primary source] ∧
      ∃ c, (ch = .install c n ∨ ch = .create c n) ∧ c.shard = s ∧ c.primary = primary := by
  have hpromotions : ∀ {w : View} {t}, Transition.initialized s n primary source ∉
      w.promotions t := by
    intro w t hmem
    unfold promotions at hmem
    split at hmem
    · cases List.mem_singleton.mp hmem
    · cases hmem
  cases ch with
  | surrender c k info =>
    rcases List.mem_cons.mp h with h | h
    · cases h
    · exact absurd h hpromotions
  | handOver c k =>
    rcases List.mem_cons.mp h with h | h
    · cases h
    · exact absurd h hpromotions
  | install c k =>
    cases List.mem_singleton.mp h
    exact ⟨rfl, c, .inl rfl, rfl, rfl⟩
  | create c k =>
    cases List.mem_singleton.mp h
    exact ⟨rfl, c, .inr rfl, rfl, rfl⟩
  | forget k => cases h
  | record t a => cases h
  | _ => cases List.mem_singleton.mp h

/-! ### What the notes say -/

/-- What happens to the copy of a shard on a node happens to the layout of the shard. -/
theorem replay_self {f g : Layout} {c : Copy} {u : Transition} {act : Copy → Layout}
    (hu : f.replay u.shard u = (f n).elim f act) (hc : f n = some c) (hg : g = act c) :
    g = f.replay u.shard u := by
  rw [hu, hc, hg, Option.elim_some]

theorem replay_promotions (h : v.Consistent) (s t : ShardId) :
    (v.takeOver s).copyOn? t = (v.promotions s).foldl (Layout.replay t) (v.copyOn? t) := by
  by_cases ht : t = s
  swap
  · rw [copyOn?_takeOver_of_ne h ht, Layout.foldl_replay_of_ne fun u hu heq =>
      ht (heq.symm.trans (shard_of_mem_promotions hu))]
  subst ht
  rcases takeOver_cases h t with ⟨hnone, heq⟩ | ⟨r, n, hbest, rfl, hr, -, -, -, heq⟩
  · rw [heq, promotions, bestReplica?_eq_none_iff.mpr hnone]
    rfl
  · have hpromotions : v.promotions r.shard = [.promoted r.shard n] := by
      simp only [promotions, hbest, (h.own hr).2, Option.getD_some]
    rw [hpromotions, heq]
    exact replay_self (u := .promoted r.shard n) (if_pos rfl) hr (layout_promote (h.linked _) hr)

/-- The notes of a change say what it does to every layout. -/
theorem replay_onView (h : v.Consistent) (hfit : ch.Fits m v) (s : ShardId) :
    (ch.onView v).copyOn? s = (ch.notes v).foldl (Layout.replay s) (v.copyOn? s) := by
  by_cases hs : ch.shard? = some s
  swap
  · rw [copyOn?_onView_of_ne h hfit hs, Layout.foldl_replay_of_ne fun u hu heq =>
      hs ((shard_of_mem_notes hu).trans (congrArg some heq))]
  cases ch with
  | start c n =>
    obtain rfl : c.shard = s := Option.some_inj.mp hs
    exact replay_self (u := .started c.shard n) (if_pos rfl) hfit.1
      (layout_settle v n c)
  | cancel c n =>
    obtain rfl : c.shard = s := Option.some_inj.mp hs
    exact replay_self (u := .relocationCancelled c.shard n _) (if_pos rfl) hfit.1
      (layout_settle v n c)
  | relocate c n target =>
    obtain rfl : c.shard = s := Option.some_inj.mp hs
    exact replay_self (u := .relocationStarted c.shard n target _) (if_pos rfl)
      hfit.1 (layout_depart v n target c)
  | release c n info =>
    obtain rfl : c.shard = s := Option.some_inj.mp hs
    exact replay_self (u := .unassigned c.shard n _) (if_pos rfl) hfit.1
      (layout_vacate v n c)
  | surrender c n info =>
    obtain rfl : c.shard = s := Option.some_inj.mp hs
    have hreleased : (v.release n c info).Consistent := h.release hfit.1
    have hfirst : (v.release n c info).copyOn? c.shard =
        Layout.replay c.shard (v.copyOn? c.shard) (.unassigned c.shard n info.reason) :=
      replay_self (u := .unassigned c.shard n _) (if_pos rfl) hfit.1
        (layout_vacate v n c)
    refine (replay_promotions hreleased c.shard c.shard).trans ?_
    rw [hfirst]
    rfl
  | handOver c n =>
    obtain rfl : c.shard = s := Option.some_inj.mp hs
    have hdropped : ((v.vacate n c).noted (.dropped c.shard n)).Consistent := h.drop hfit.1
    have hfirst : ((v.vacate n c).noted (.dropped c.shard n)).copyOn? c.shard =
        Layout.replay c.shard (v.copyOn? c.shard) (.dropped c.shard n) :=
      replay_self (u := .dropped c.shard n) (if_pos rfl) hfit.1
        (layout_vacate v n c)
    refine (replay_promotions hdropped c.shard c.shard).trans ?_
    rw [hfirst]
    rfl
  | install c n =>
    obtain rfl : c.shard = s := Option.some_inj.mp hs
    exact (layout_occupy v n c).trans (if_pos rfl).symm
  | create c n =>
    obtain rfl : c.shard = s := Option.some_inj.mp hs
    exact (layout_occupy (v.queue c) n c).trans (if_pos rfl).symm
  | forget n => cases hs
  | record t a => cases hs

end View

namespace Pass

variable {G : Pass → Change → Prop} {p q : Pass} {s : ShardId} {n : NodeId}

/-- Replaying what a run noted leads from the layouts before it to the layouts after it. -/
theorem Runs.replay (h : Runs G p q) (hp : p.Sound) :
    ∃ log, q.view.transitions = p.view.transitions ++ log ∧
      ∀ s, q.view.copyOn? s = log.foldl (Layout.replay s) (p.view.copyOn? s) := by
  refine h.invariant_of_sound hp (I := fun r => ∃ log,
    r.view.transitions = p.view.transitions ++ log ∧
      ∀ s, r.view.copyOn? s = log.foldl (Layout.replay s) (p.view.copyOn? s))
    ⟨[], (List.append_nil _).symm, fun _ => rfl⟩ ?_
  rintro r ch - hr ⟨log, hlog, hreplay⟩ hfit -
  refine ⟨log ++ ch.notes r.view, ?_, fun s => ?_⟩
  · rw [Change.apply, View.transitions_onView, hlog, List.append_assoc]
  · rw [Change.apply, View.replay_onView hr.view.consistent hfit, hreplay, List.foldl_append]

/-- A copy that was placed was placed before the run, or by one of its changes. -/
theorem Runs.exists_placed (h : Runs G p q) {primary : Bool} {source : Option NodeId}
    {before after : List Transition}
    (hlog : q.view.transitions = before ++ .initialized s n primary source :: after) :
    (∃ rest, p.view.transitions = before ++ .initialized s n primary source :: rest) ∨
      ∃ u ch c, Runs G p u ∧ u.view.transitions = before ∧ ch.Fits u.state.metadata u.view ∧
        G u ch ∧ (ch = .install c n ∨ ch = .create c n) ∧ c.shard = s ∧ c.primary = primary := by
  induction h generalizing after with
  | refl => exact .inl ⟨after, hlog⟩
  | @step u ch hruns hfit hguard ih =>
    rw [Change.apply, View.transitions_onView] at hlog
    rcases List.append_eq_append_iff.mp hlog with ⟨rest, rfl, hnotes⟩ | ⟨rest, hsplit, hnotes⟩
    · -- the last change placed the copy
      have hmem : .initialized s n primary source ∈ ch.notes u.view :=
        hnotes ▸ List.mem_append_right rest List.mem_cons_self
      obtain ⟨hsingle, c, hchange, hshard, hprim⟩ := View.notes_of_initialized_mem hmem
      rw [hsingle] at hnotes
      have hrest : rest = [] := by
        cases rest with
        | nil => rfl
        | cons t tail => simp at hnotes
      exact .inr ⟨u, ch, c, hruns, by rw [hrest, List.append_nil], hfit, hguard, hchange,
        hshard, hprim⟩
    · cases rest with
      | nil =>
        obtain ⟨-, c, hchange, hshard, hprim⟩ :=
          View.notes_of_initialized_mem (hnotes ▸ List.mem_cons_self)
        exact .inr ⟨u, ch, c, hruns, by rw [hsplit, List.append_nil], hfit, hguard, hchange,
          hshard, hprim⟩
      | cons t tail =>
        -- it was placed before the last change
        obtain ⟨rfl, -⟩ := List.cons.inj hnotes
        exact ih hsplit

end Pass

end ShardAllocation
