/-
The log of a pass as the difference of two snapshots.

The standings of a snapshot say of every shard and node which role, which state and which other
end the copy there has, the targets of moves included.  Whoever knows them and reads the log of
a pass, step by step and without any look at the pass itself, knows the standings of the next
snapshot.  What a step does not spell out follows from what is known already: the source of a
move that is complete, the target that goes along with its source, the other half of a move
whose role changes.

* `Standings.replay`, `Placements.replay` — what a step of the log makes of the standings;
* `Layout.standings_replay` — a step says all that happens to a layout;
* `View.placements_onView` — the notes of a change say all that it does;
* `reachable_replay` — the log of a pass leads from one snapshot to the next.
-/
import ShardAllocation.Proofs.Cluster.Layout
import ShardAllocation.Proofs.Cluster.RecoverySource

namespace ShardAllocation

/-- What is known of a copy from outside: its role, its state and the other end of its move. -/
structure Standing where
  primary : Bool
  state : CopyState
  peer : Option NodeId
  deriving DecidableEq, Repr

namespace Standing

/-- The node that a copy moves to. -/
def target? (x : Standing) : Option NodeId := if x.state = .relocating then x.peer else none

/-- The node that a copy is coming from, if it is the target of a move. -/
def source? (x : Standing) : Option NodeId := if x.state = .initializing then x.peer else none

end Standing

/-- The standing of a copy. -/
def Copy.standing (c : Copy) : Standing := ⟨c.primary, c.state, c.peer⟩

/-- The standings of the copies of one shard, by node. -/
abbrev Standings := NodeId → Option Standing

namespace Standings

/-- The node holds a copy of the given standing. -/
def put (f : Standings) (n : NodeId) (x : Standing) : Standings := fun k =>
  if k = n then some x else f k

/-- The node, if there is one, holds no copy. -/
def without (f : Standings) (o : Option NodeId) : Standings := fun k =>
  if o = some k then none else f k

/-- The copies on two nodes, or on one, are primaries. -/
def promote (f : Standings) (n : NodeId) (o : Option NodeId) : Standings := fun k =>
  if k = n ∨ o = some k then (f k).map fun x => { x with primary := true } else f k

/-- The standings after a step of the log. -/
def replay (f : Standings) : Transition → Standings
  | .initialized _ n primary _ => f.put n ⟨primary, .initializing, none⟩
  | .started _ n => (f n).elim f fun x =>
    (f.without x.source?).put n ⟨x.primary, .started, none⟩
  | .relocationStarted _ source target _ => (f source).elim f fun x =>
    (f.put target ⟨x.primary, .initializing, some source⟩).put source
      ⟨x.primary, .relocating, some target⟩
  | .relocationCancelled _ source target => (f source).elim f fun x =>
    (f.without (some target)).put source ⟨x.primary, .started, none⟩
  | .unassigned _ n _ => (f n).elim f fun x => (f.without x.target?).without (some n)
  | .promoted _ n => (f n).elim f fun x => f.promote n x.target?
  | .dropped _ n => (f n).elim f fun x => (f.without x.target?).without (some n)

end Standings

/-- The standings of the copies of every shard. -/
abbrev Placements := ShardId → Standings

/-- The standings of every shard after a step of the log. -/
def Placements.replay (f : Placements) (t : Transition) : Placements :=
  Function.update f t.shard ((f t.shard).replay t)

namespace Layout

/-- The standings of the copies of a layout. -/
def standings (f : Layout) : Standings := fun n => (f n).map Copy.standing

/-- The step says of the layout before it what is so. -/
def Tells (f : Layout) : Transition → Prop
  | .started _ n => ∀ c, f n = some c → c.state = .initializing
  | .relocationCancelled _ n target => ∀ c, f n = some c → c.peer = some target
  | .unassigned _ n _ => ∀ c, f n = some c → c.isRelocationTarget = false
  | .promoted _ n => ∀ c, f n = some c → c.isRelocationTarget = false
  | .dropped _ n => ∀ c, f n = some c → c.isRelocationTarget = false
  | _ => True

variable {s : ShardId} {f : Layout} {n m : NodeId} {c : Copy} {t : Transition}

/-- What depends on the copy on a node depends on its standing, if it says the same of both. -/
theorem standings_elim {act : Copy → Layout} {g : Standing → Standings}
    (h : ∀ c, f n = some c → (act c).standings = g c.standing) :
    ((f n).elim f act).standings = (f.standings n).elim f.standings g := by
  have hn : f.standings n = (f n).map Copy.standing := rfl
  cases hc : f n with
  | none => rw [hn, hc, Option.map_none, Option.elim_none, Option.elim_none]
  | some c => rw [hn, hc, Option.map_some, Option.elim_some, Option.elim_some, h c hc]

/-- A copy that is no target of a move has its own target at the other end, if anything. -/
theorem Linked.target?_standing (h : Linked s f) (hc : f n = some c)
    (ht : c.isRelocationTarget = false) : c.standing.target? = c.peer := by
  cases hp : c.peer with
  | none => simp [Standing.target?, Copy.standing, hp]
  | some m => simp [Standing.target?, Copy.standing, hp, h.state_of_peer hc hp ht]

/-! ### The changes of a layout -/

theorem standings_fill : (f.fill n c).standings = f.standings.put n c.standing := by
  funext k
  simp only [standings, fill, Standings.put]
  split <;> rfl

theorem standings_settle :
    (f.settle n c).standings = (f.standings.without c.peer).put n ⟨c.primary, .started, none⟩ := by
  funext k
  simp only [standings, settle, Standings.put, Standings.without]
  split
  · rfl
  · split <;> rfl

theorem standings_depart (hnode : c.node = some n) : (f.depart n m c).standings =
    (f.standings.put m ⟨c.primary, .initializing, some n⟩).put n
      ⟨c.primary, .relocating, some m⟩ := by
  funext k
  simp only [standings, depart, Standings.put]
  split
  · rfl
  · split
    · simp [Copy.standing, Copy.arriving, hnode]
    · rfl

theorem standings_vacate :
    (f.vacate n c).standings = (f.standings.without c.peer).without (some n) := by
  funext k
  simp only [standings, vacate, Standings.without, Option.some_inj, @eq_comm _ n k]
  split
  · rfl
  · split <;> rfl

theorem standings_promote : (f.promote n c).standings = f.standings.promote n c.peer := by
  funext k
  simp only [standings, promote, Standings.promote]
  split
  · rw [Option.map_map, Option.map_map]
    rfl
  · rfl

/-- What a step makes of a layout is what it makes of its standings. -/
theorem standings_replay (h : Linked t.shard f) (htells : f.Tells t) :
    (f.replay t.shard t).standings = f.standings.replay t := by
  rw [replay.eq_def, if_pos rfl]
  cases t with
  | initialized s n primary source => exact standings_fill
  | started s n =>
    refine standings_elim fun c hc => ?_
    have hsource : c.standing.source? = c.peer := if_pos (htells c hc)
    rw [hsource, standings_settle]
    rfl
  | relocationStarted s n target primary =>
    exact standings_elim fun c hc => standings_depart (h.own hc).2
  | relocationCancelled s n target =>
    refine standings_elim fun c hc => ?_
    rw [standings_settle, htells c hc]
    rfl
  | unassigned s n reason =>
    refine standings_elim fun c hc => ?_
    rw [h.target?_standing hc (htells c hc), standings_vacate]
  | promoted s n =>
    refine standings_elim fun c hc => ?_
    rw [h.target?_standing hc (htells c hc), standings_promote]
  | dropped s n =>
    refine standings_elim fun c hc => ?_
    rw [h.target?_standing hc (htells c hc), standings_vacate]

end Layout

/-- The standings in a snapshot. -/
def RoutingTable.placements (table : RoutingTable) : Placements := fun s =>
  (table.layout s).standings

namespace View

variable {v w : View} {s : ShardId} {n : NodeId} {c : Copy} {m : Metadata} {ch : Change}
variable {t : Transition}

/-- The standings in a view. -/
def placements (v : View) : Placements := fun s => Layout.standings (v.copyOn? s)

/-- A step that says all that happens to the layouts says all that happens to the standings. -/
theorem placements_of_replay (h : v.Consistent) (htells : Layout.Tells (v.copyOn? t.shard) t)
    (hlayout : ∀ s, w.copyOn? s = Layout.replay s (v.copyOn? s) t) :
    w.placements = v.placements.replay t := by
  funext s
  rw [placements, hlayout]
  by_cases hs : s = t.shard
  · subst hs
    rw [Layout.standings_replay (h.linked _) htells]
    exact (Function.update_self t.shard _ v.placements).symm
  · rw [Layout.replay_of_ne fun heq => hs heq.symm]
    exact (Function.update_of_ne hs _ v.placements).symm

/-- What is noted of a replica that takes over says all that it does. -/
theorem placements_takeOver (h : v.Consistent) (s : ShardId) :
    (v.takeOver s).placements = (v.promotions s).foldl Placements.replay v.placements := by
  have hreplay := replay_promotions h s
  unfold promotions at hreplay ⊢
  cases hbest : v.bestReplica? s with
  | none =>
    simp only [hbest, List.foldl_nil] at hreplay
    exact funext fun t => congrArg Layout.standings (hreplay t)
  | some r =>
    simp only [hbest, List.foldl_cons, List.foldl_nil] at hreplay
    refine placements_of_replay h (fun d hd => ?_) hreplay
    obtain ⟨n, hnode, hr, -, hactive, -⟩ := bestReplica?_spec h hbest
    rw [hnode, Option.getD_some] at hd
    obtain rfl : r = d := Option.some_inj.mp (hr.symm.trans hd)
    exact Copy.isRelocationTarget_of_active hactive

/-- What a change with a single note does to the standings. -/
theorem placements_of_note (h : v.Consistent) (hfit : ch.Fits m v) (hnotes : ch.notes v = [t])
    (htells : Layout.Tells (v.copyOn? t.shard) t) :
    (ch.onView v).placements = (ch.notes v).foldl Placements.replay v.placements := by
  rw [hnotes, List.foldl_cons, List.foldl_nil]
  refine placements_of_replay h htells fun s => ?_
  rw [replay_onView h hfit, hnotes, List.foldl_cons, List.foldl_nil]

/-- The notes of a change say all that it does to the standings. -/
theorem placements_onView (h : v.Consistent) (hfit : ch.Fits m v) :
    (ch.onView v).placements = (ch.notes v).foldl Placements.replay v.placements := by
  -- what is said of the copy that changes is said of the copy on its node
  have honly : ∀ {c : Copy} {n : NodeId} {Q : Copy → Prop}, v.copyOn? c.shard n = some c → Q c →
      ∀ d, v.copyOn? c.shard n = some d → Q d := fun hc hQ d hd =>
    Option.some_inj.mp (hc.symm.trans hd) ▸ hQ
  have hrelease : ∀ {c n info}, Change.Fits m v (.release c n info) →
      (v.release n c info).placements = v.placements.replay (.unassigned c.shard n info.reason) :=
    fun {c n info} hfit =>
      have hnotes : (Change.release c n info).notes v = [.unassigned c.shard n info.reason] := rfl
      placements_of_note h hfit hnotes (honly hfit.1 hfit.2)
  cases ch with
  | start c n =>
    exact placements_of_note (t := .started c.shard n) h hfit rfl (honly hfit.1 hfit.2)
  | cancel c n =>
    obtain ⟨target, -, hpeer, -⟩ := (h.linked c.shard).target hfit.1 hfit.2
    refine placements_of_note (t := .relocationCancelled c.shard n _) h hfit rfl
      (honly hfit.1 ?_)
    rw [hpeer, Option.getD_some]
  | relocate c n target => exact placements_of_note h hfit rfl trivial
  | release c n info => exact hrelease hfit
  | surrender c n info =>
    refine (placements_takeOver (h.release hfit.1) c.shard).trans ?_
    rw [hrelease ⟨hfit.1, hfit.2.1⟩]
    rfl
  | handOver c n =>
    have hdropped : ((v.vacate n c).noted (.dropped c.shard n)).placements =
        v.placements.replay (.dropped c.shard n) := by
      refine placements_of_replay h (honly hfit.1 hfit.2.1) fun s => ?_
      by_cases hs : s = c.shard
      · subst hs
        exact replay_self (u := .dropped c.shard n) (if_pos rfl) hfit.1 (layout_vacate v n c)
      · rw [Layout.replay_of_ne fun heq => hs heq.symm]
        exact copyOn?_vacate_of_ne hs
    refine (placements_takeOver (h.drop hfit.1) c.shard).trans ?_
    rw [hdropped]
    rfl
  | install c n => exact placements_of_note h hfit rfl trivial
  | create c n => exact placements_of_note h hfit rfl trivial
  | forget n =>
    exact funext fun s => congrArg Layout.standings (replay_onView h hfit s)
  | record s a => rfl

end View

namespace Pass

/-- Following what a run noted leads from the standings before it to those after it. -/
theorem Runs.placements {G : Pass → Change → Prop} {p q : Pass} (h : Runs G p q) (hp : p.Sound) :
    ∃ log, q.view.transitions = p.view.transitions ++ log ∧
      q.view.placements = log.foldl Placements.replay p.view.placements := by
  refine h.invariant_of_sound hp (I := fun u => ∃ log,
    u.view.transitions = p.view.transitions ++ log ∧
      u.view.placements = log.foldl Placements.replay p.view.placements)
    ⟨[], (List.append_nil _).symm, rfl⟩ ?_
  rintro u ch - hu ⟨log, hlog, hreplay⟩ hfit -
  refine ⟨log ++ ch.notes u.view, ?_, ?_⟩
  · rw [Change.apply, View.transitions_onView, hlog, List.append_assoc]
  · rw [Change.apply, View.placements_onView hu.view.consistent hfit, hreplay, List.foldl_append]

end Pass

/-- Following the log of a pass, step by step, leads from the standings of the snapshot before it
to the standings of the snapshot after it. -/
theorem reachable_replay {s : ClusterState} (h : Reachable s) {a : Allocator} {t : Trigger}
    {r : RerouteResult} (hr : a.reroute s t = .ok r) :
    r.transitions.foldl Placements.replay s.table.placements = r.state.table.placements := by
  obtain ⟨p, m, q, hpass⟩ := Allocator.exists_passage h.wellFormed hr
  have hfirst : p.view.placements = s.table.placements :=
    funext fun shard => congrArg Layout.standings (hpass.layout_first h.wellFormed shard)
  have hlast : q.view.placements = r.state.table.placements :=
    funext fun shard => congrArg Layout.standings (hpass.layout_last shard)
  let G : Pass → Change → Prop := fun _ _ => True
  have hruns : Pass.Runs G p q :=
    (hpass.completes.mono fun _ _ _ => trivial).trans (hpass.admits.mono fun _ _ _ => trivial)
  obtain ⟨log, hlog, hreplay⟩ := hruns.placements hpass.sound
  rw [hpass.loaded.transitions, List.nil_append] at hlog
  rw [hpass.transitions_eq, hlog, ← hfirst, ← hreplay, hlast]

/-- The node of a primary on its way leaves the cluster. -/
def abandonedMove : ClusterState :=
  movingCluster.withMembers (SortedMap.ofList [("b", none), ("c", none)])

/-- The replica that was being filled goes first.  Then the primary goes, and the target of its
move, which the log does not name, goes along. -/
theorem reachable_replay_abandoned :
    ∃ r, ({ settings := {} } : Allocator).reroute abandonedMove
        { reason := "left", time := ⟨0, 0⟩ } = .ok r ∧
      r.transitions = [.unassigned ⟨"x", 0⟩ "b" .primaryFailed,
        .unassigned ⟨"x", 0⟩ "a" .relocationAbandoned] ∧
      abandonedMove.table.placements ⟨"x", 0⟩ "c" = some ⟨true, .initializing, some "a"⟩ ∧
      r.state.table.placements ⟨"x", 0⟩ "c" = none ∧
      r.transitions.foldl Placements.replay abandonedMove.table.placements =
        r.state.table.placements := by
  have hrun : (({ settings := {} } : Allocator).reroute abandonedMove
      { reason := "left", time := ⟨0, 0⟩ }).toOption.any (fun r =>
        r.transitions = [.unassigned ⟨"x", 0⟩ "b" .primaryFailed,
          .unassigned ⟨"x", 0⟩ "a" .relocationAbandoned] ∧
        abandonedMove.table.placements ⟨"x", 0⟩ "c" = some ⟨true, .initializing, some "a"⟩ ∧
        r.state.table.placements ⟨"x", 0⟩ "c" = none) = true := by
    decide +kernel
  obtain ⟨r, hr, hlog, hbefore, hafter⟩ := exists_ok_of_any hrun
  have hreach := standardReachable_movingCluster.step
    (.members (SortedMap.ofList [("b", none), ("c", none)])) trivial
  exact ⟨r, hr, hlog, hbefore, hafter, reachable_replay hreach.reachable hr⟩

end ShardAllocation
