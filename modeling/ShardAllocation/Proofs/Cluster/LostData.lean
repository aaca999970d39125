/-
Data that is lost and known to be lost.

Once the primary of a shard was started, it is active in every later snapshot, or it waits
and remembers that there was data; no pass fills it with nothing.  That ends only when the
index is removed, or when a command gives the lost data up.

* `ShardTable.Keeps` — the primary of a stored shard;
* `Step.keeps`, `Step.quiet` — what every event keeps, and what a pass does not place;
* `run_keeps_primary` — the primary after a run, and what its passes place.
-/
import ShardAllocation.Proofs.Cluster.Run
import ShardAllocation.Proofs.Pass.Keeping

namespace ShardAllocation

namespace ShardTable

/-- The primary is started or moves, or it waits and its data is known to be lost. -/
def Keeps (x : ShardTable) : Prop :=
  ∃ c, x.primary? = some c ∧ (c.state = .started ∨ c.state = .relocating ∨
    c.state = .unassigned ∧ c.info.any (·.lostActiveCopy) = true)

variable {x : ShardTable} {most : Nat}

theorem primary?_spec {c : Copy} (h : x.primary? = some c) : c ∈ x.copies ∧ c.primary = true :=
  ⟨List.mem_of_find?_eq_some h, List.find?_some (p := fun c : Copy => c.primary) h⟩

theorem Keeps.withReplicas (h : x.Keeps) (hx : x.WellFormed most) (wanted : Nat)
    (since : Instant) : (x.withReplicas wanted since).Keeps := by
  obtain ⟨c, hc, hstate⟩ := h
  obtain ⟨hmem, hprim⟩ := primary?_spec hc
  have hresized := hx.withReplicas wanted since
  exact ⟨c, hresized.primary?_eq (mem_withReplicas_of_primary hmem hprim) hprim, hstate⟩

end ShardTable

/-- The event removes the index of the shard, or a command of it gives lost data up. -/
def Event.GivesUp (shard : ShardId) : Event → Prop
  | remove index => index = shard.index
  | pass _ _ r => ∃ n, ⟨.allocate shard n true, none⟩ ∈ r.outcomes
  | _ => False

namespace Passage

variable {a : Allocator} {s : ClusterState} {t : Trigger} {r : RerouteResult} {p m q : Pass}
variable {shard : ShardId} {x : ShardTable}

theorem keeps_first (h : Passage a s t r p m q) (hs : s.WellFormed)
    (hx : s.table.shard? shard = some x) (hkeeps : x.Keeps) : p.view.Keeps shard := by
  obtain ⟨c, hc, hstate⟩ := hkeeps
  -- the primary of the snapshot is the only one
  have hunique : ∀ d ∈ s.table.copies, d.shard = shard → d.primary = true → d = c := by
    intro d hd hshard hprim
    have hfound := (hs.wellFormed_entry hx).primary?_eq
      ((hs.mem_entry_iff hx).mpr ⟨hd, hshard⟩) hprim
    exact Option.some_inj.mp (hfound.symm.trans hc)
  constructor
  · intro n d hd hprim
    obtain ⟨e, he, hshard, hassigned, hrole, rfl | htarget⟩ := h.stored_of_copyOn? hs hd
    · obtain rfl := hunique d he hshard hprim
      rcases hstate with hs | hs | ⟨hs, -⟩
      · exact .inl (Copy.isActive_iff.mpr (.inl hs))
      · exact .inl (Copy.isActive_iff.mpr (.inr hs))
      · exact absurd hs hassigned
    · exact .inr htarget
  · intro d hd hshard hprim
    rw [h.loaded.unassigned, List.mem_filter] at hd
    obtain rfl := hunique d hd.1 hshard hprim
    have hwait : d.state = .unassigned := by simpa [Copy.isUnassigned] using hd.2
    rcases hstate with hs | hs | ⟨-, hlost⟩
    · rw [hwait] at hs
      cases hs
    · rw [hwait] at hs
      cases hs
    · exact Bool.and_eq_true_iff.mpr ⟨hprim, hlost⟩

theorem keeps_last (h : Passage a s t r p m q)
    (hforced : ∀ n, ⟨.allocate shard n true, none⟩ ∉ r.outcomes) (hkeeps : p.view.Keeps shard) :
    q.view.Keeps shard ∧ q.Quiet shard := by
  let P := Pass.Policy.ofOutcomes a.deciders t r.outcomes
  have hforced : ¬P.forced shard := by
    rintro ⟨n, hn⟩
    exact hforced n hn
  let I : Pass → Prop := fun u => u.Sound ∧ u.view.Keeps shard ∧ u.Quiet shard
  have hstep : ∀ u ch, I u → ch.Fits u.state.metadata u.view →
      P.Completes u ch ∨ P.Admits u ch → I (ch.apply u) := by
    rintro u ch ⟨hu, hkeeps, hquiet⟩ hfit hguard
    exact ⟨hu.apply hfit, Pass.keeps_apply hu hfit hguard hforced hkeeps,
      Pass.quiet_apply hu hfit hguard hforced hkeeps hquiet⟩
  have hfirst : I p := by
    refine ⟨h.sound, hkeeps, fun n source hmem => ?_⟩
    rw [h.loaded.transitions] at hmem
    exact absurd hmem List.not_mem_nil
  have hmiddle : I m := h.completes.invariant hfirst
    fun u ch hu hfit hguard => hstep u ch hu hfit (.inl hguard)
  have hlast : I q := h.admits.invariant hmiddle
    fun u ch hu hfit hguard => hstep u ch hu hfit (.inr hguard)
  exact hlast.2

theorem keeps_frozen (h : Passage a s t r p m q) (hknown : s.metadata.knows shard = true)
    (hkeeps : q.view.Keeps shard) : ∃ x, r.state.table.shard? shard = some x ∧ x.Keeps := by
  have hq := h.sound_view
  have hslots := hq.wellFormed_slots hknown
  refine ⟨_, h.shard?_table hknown, ?_⟩
  have hpos := Nat.lt_of_lt_of_eq Nat.one_pos hslots.primary.symm
  obtain ⟨c, hc, hprim⟩ := List.countP_pos_iff.mp hpos
  refine ⟨c, hslots.primary?_eq hc hprim, ?_⟩
  rcases (View.mem_slots_iff hq.consistent.indexed).mp hc with ⟨⟨n, hn⟩, ht⟩ | ⟨hwait, hshard⟩
  · rcases hkeeps.held n c hn hprim with hactive | htarget
    · exact (Copy.isActive_iff.mp hactive).imp_right .inl
    · rw [ht] at htarget
      cases htarget
  · have hlost := hkeeps.waiting c hwait hshard hprim
    exact .inr (.inr ⟨hq.consistent.waiting c hwait, (Bool.and_eq_true_iff.mp hlost).2⟩)

end Passage

variable {s u : ClusterState} {es : List Event} {e : Event} {shard : ShardId}

namespace Step

/-- What an event keeps, unless it gives the data of the shard up. -/
theorem keeps (h : Step s e u) (hs : s.WellFormed) (he : ¬e.GivesUp shard)
    (hkeeps : ∃ x, s.table.shard? shard = some x ∧ x.Keeps) :
    ∃ x, u.table.shard? shard = some x ∧ x.Keeps := by
  obtain ⟨x, hx, hkeeps⟩ := hkeeps
  rcases h.shard?_cases shard with hsame | ⟨y, wanted, since, hy, hresized⟩ | ⟨rfl, -⟩ |
    ⟨hnone, -⟩ | ⟨a, t, r, rfl, hr, rfl⟩
  · exact ⟨x, hsame.trans hx, hkeeps⟩
  · obtain rfl : x = y := Option.some_inj.mp (hx.symm.trans hy)
    exact ⟨_, hresized, hkeeps.withReplicas (hs.wellFormed_entry hx) wanted since⟩
  · exact absurd rfl he
  · rw [hnone] at hx
    cases hx
  · obtain ⟨p, m, q, hpass⟩ := Allocator.exists_passage hs hr
    have hlast := hpass.keeps_last (fun n hn => he ⟨n, hn⟩) (hpass.keeps_first hs hx hkeeps)
    exact hpass.keeps_frozen (hs.knows_of_entry hx) hlast.1

/-- A pass places no fresh primary, unless it gives the data of the shard up. -/
theorem quiet {a : Allocator} {t : Trigger} {r : RerouteResult} (h : Step s (.pass a t r) u)
    (hs : s.WellFormed) (he : ¬(Event.pass a t r).GivesUp shard)
    (hkeeps : ∃ x, s.table.shard? shard = some x ∧ x.Keeps) (n : NodeId)
    (source : Option NodeId) : Transition.initialized shard n true source ∉ r.transitions := by
  obtain ⟨x, hx, hkeeps⟩ := hkeeps
  cases h with
  | pass hr =>
    obtain ⟨p, m, q, hpass⟩ := Allocator.exists_passage hs hr
    have hlast := hpass.keeps_last (fun n hn => he ⟨n, hn⟩) (hpass.keeps_first hs hx hkeeps)
    rw [hpass.transitions_eq]
    exact hlast.2 n source

end Step

theorem Run.keeps (h : Run s es u) (hs : s.WellFormed) (hes : ∀ e ∈ es, ¬e.GivesUp shard)
    (hkeeps : ∃ x, s.table.shard? shard = some x ∧ x.Keeps) :
    (∃ x, u.table.shard? shard = some x ∧ x.Keeps) ∧
      ∀ a t r, Event.pass a t r ∈ es → ∀ n source,
        Transition.initialized shard n true source ∉ r.transitions := by
  induction h with
  | refl => exact ⟨hkeeps, fun _ _ _ hmem => absurd hmem List.not_mem_nil⟩
  | @step es e u v hrun hstep ih =>
    obtain ⟨hbefore, hquiet⟩ := ih fun f hf => hes f (List.mem_append_left _ hf)
    have hu := hrun.wellFormed hs
    have he := hes e (List.mem_append_right _ (List.mem_singleton_self e))
    refine ⟨hstep.keeps hu he hbefore, fun a t r hmem => ?_⟩
    rcases List.mem_append.mp hmem with hmem | hmem
    · exact hquiet a t r hmem
    · obtain rfl := List.mem_singleton.mp hmem
      exact hstep.quiet hu he hbefore

/-- After the primary of a shard was started, it stays started, moves, or waits with its data
known to be lost, and no pass places a fresh one, until an event gives the data up. -/
theorem run_keeps_primary (h : Reachable s) {x : ShardTable} {c : Copy}
    (hx : s.table.shard? shard = some x) (hc : x.primary? = some c) (hstarted : c.state = .started)
    (hrun : Run s es u) (hes : ∀ e ∈ es, ¬e.GivesUp shard) :
    (∃ x c, u.table.shard? shard = some x ∧ x.primary? = some c ∧
      (c.state = .started ∨ c.state = .relocating ∨
        c.state = .unassigned ∧ c.info.any (·.lostActiveCopy) = true)) ∧
      ∀ a t r, Event.pass a t r ∈ es → ∀ n source,
        Transition.initialized shard n true source ∉ r.transitions := by
  obtain ⟨⟨y, hy, d, hd, hstate⟩, hquiet⟩ :=
    hrun.keeps h.wellFormed hes ⟨x, hx, c, hc, .inl hstarted⟩
  exact ⟨⟨y, d, hy, hd, hstate⟩, hquiet⟩

/-- Both members left, and the only one is a node without data. -/
theorem run_keeps_primary_replaced :
    ∃ r, ({ settings := {} } : Allocator).reroute
        (filledCluster.withMembers (SortedMap.ofList [("c", none)]))
        { reason := "left", time := ⟨0, 0⟩ } = .ok r ∧
      (∃ x c, r.state.table.shard? ⟨"x", 0⟩ = some x ∧ x.primary? = some c ∧
        (c.state = .started ∨ c.state = .relocating ∨
          c.state = .unassigned ∧ c.info.any (·.lostActiveCopy) = true)) ∧
      ∀ n source, Transition.initialized ⟨"x", 0⟩ n true source ∉ r.transitions := by
  have hstarted : ((filledCluster.table.shard? ⟨"x", 0⟩).bind (·.primary?)).any
      (·.state == .started) = true := by decide +kernel
  obtain ⟨c, hc, hstate⟩ := (Option.any_eq_true _ _).mp hstarted
  obtain ⟨x, hx, hc⟩ := Option.bind_eq_some_iff.mp hc
  have houtcomes : (({ settings := {} } : Allocator).reroute
      (filledCluster.withMembers (SortedMap.ofList [("c", none)]))
      { reason := "left", time := ⟨0, 0⟩ }).toOption.any (·.outcomes.isEmpty) = true := by
    decide +kernel
  cases hr : ({ settings := {} } : Allocator).reroute
      (filledCluster.withMembers (SortedMap.ofList [("c", none)]))
      { reason := "left", time := ⟨0, 0⟩ } with
  | error e =>
    rw [hr] at houtcomes
    cases houtcomes
  | ok r =>
    rw [hr, Except.toOption, Option.any_some] at houtcomes
    have hrun := (Run.refl.step (.members _)).step (.pass hr)
    obtain ⟨hlater, hquiet⟩ := run_keeps_primary standardReachable_filledCluster.reachable hx hc
      (eq_of_beq hstate) hrun (by simp [Event.GivesUp, List.isEmpty_iff.mp houtcomes])
    exact ⟨r, rfl, hlater, hquiet _ _ r (List.mem_append_right _ (List.mem_singleton_self _))⟩

end ShardAllocation
