/-
The commands of an operator in a pass.

Whatever the deciders say and whatever commands came before, a command ends in an outcome and
does what it owes, which for a rejected one is nothing.  So the rejected commands can be taken
out of a trigger, and the pass does the same.

* `reroute_applied` — a pass without the commands that it rejects;
* `reachable_execute` — the commands of every pass over a reachable snapshot.
-/
import ShardAllocation.Proofs.Cluster.Requests
import ShardAllocation.Proofs.Pass.Execution

namespace ShardAllocation

/-- The outcomes of the commands that a pass carried out. -/
def RerouteResult.applied (r : RerouteResult) : List CommandOutcome :=
  r.outcomes.filter (·.isApplied)

namespace Allocator

variable {a : Allocator} {s : ClusterState} {t : Trigger} {r : RerouteResult}

/-- The outcomes are handed through to the result. -/
theorem conclude_outcomes (p : Pass) (outcomes others : List CommandOutcome) :
    conclude p others = { conclude p outcomes with outcomes := others } := by
  unfold conclude
  simp only
  split <;> rfl

theorem phases_applied {p q : Pass} {ds : List Decider} {outcomes : List CommandOutcome}
    (h : phases ds t p = .ok outcomes q) :
    outcomes.map (·.command) = t.commands ∧
      phases ds { t with commands := (outcomes.filter (·.isApplied)).map (·.command) } p =
        .ok (outcomes.filter (·.isApplied)) q := by
  rw [Pass.phases_eq_intake] at h
  obtain ⟨⟨⟩, l, hintake, h⟩ := exists_of_bind_ok h
  obtain ⟨os, k, hexecuted, h⟩ := exists_of_bind_ok h
  obtain ⟨⟨⟩, q', hplaced, h⟩ := exists_of_bind_ok h
  cases h
  obtain ⟨hall, happlied⟩ := Pass.executeAll_applied hexecuted
  refine ⟨hall, ?_⟩
  -- what comes before the commands does not look at them
  have hsame : Pass.intake { t with
      commands := (outcomes.filter (·.isApplied)).map (·.command) } p = .ok () l := hintake
  rw [Pass.phases_eq_intake, bind_ok hsame, bind_ok happlied, bind_ok hplaced]
  rfl

/-- A pass does the same without the commands that it rejects. -/
theorem reroute_applied (h : a.reroute s t = .ok r) :
    r.outcomes.map (·.command) = t.commands ∧
      a.reroute s { t with commands := r.applied.map (·.command) } =
        .ok { r with outcomes := r.applied } := by
  obtain ⟨⟨⟩, hset, h⟩ := bind_eq_ok_iff.mp h
  obtain ⟨p, hbegin, h⟩ := bind_eq_ok_iff.mp h
  split at h
  next => cases h
  next outcomes q hphases =>
    obtain ⟨⟨⟩, hvalid, h⟩ := bind_eq_ok_iff.mp h
    cases h
    obtain ⟨hall, happlied⟩ := phases_applied hphases
    rw [RerouteResult.applied, outcomes_conclude]
    refine ⟨hall, ?_⟩
    rw [← conclude_outcomes]
    have happlied : (phases a.deciders { t with
        commands := (outcomes.filter (·.isApplied)).map (·.command) }).run p = _ := happlied
    simp [reroute, hset, hbegin, happlied, hvalid, bind, Except.bind]
    rfl

end Allocator

/-- In a pass over a reachable snapshot every command, whatever came before it, ends in an outcome
and does what it owes.  The pass gives the same without the commands that it rejects. -/
theorem reachable_execute {s : ClusterState} (h : Reachable s) (t : Trigger) :
    (∀ (settings : Settings) (ds : List Decider) (earlier : List Command), ∃ p l os k,
      Pass.begin s settings t.time = .ok p ∧ Pass.intake t p = .ok () l ∧
      Pass.executeAll ds earlier l = .ok os k ∧
      ∀ (ds' : List Decider) (command : Command),
        ∃ o q, Pass.execute ds' command k = .ok o q ∧ Pass.Handled command k o q) ∧
    ∀ (a : Allocator) (r : RerouteResult), a.reroute s t = .ok r →
      r.outcomes.map (·.command) = t.commands ∧
      a.reroute s { t with commands := r.applied.map (·.command) } =
        .ok { r with outcomes := r.applied } := by
  refine ⟨fun settings ds earlier => ?_, fun a r => Allocator.reroute_applied⟩
  obtain ⟨p, hbegin, hp, -⟩ := h.wellFormed.begin_eq settings t.time
  let P : Pass.Policy := ⟨ds, t, fun _ => False⟩
  obtain ⟨⟨⟩, l, hintake, m, hcompletes, hclears, -⟩ :=
    (Pass.intake_leads (F := False) P hp).exists_ok id
  have hl := hclears.sound (hcompletes.sound hp)
  let earlierOnes : Trigger := { t with commands := earlier }
  have hleads : Pass.Leads False (Pass.executeAll ds earlier) l fun os q =>
      Pass.Runs (Pass.Policy.ofOutcomes ds earlierOnes os).Arranges l q :=
    Pass.executeAll_leads hl earlierOnes (List.Subset.refl earlier)
  obtain ⟨os, k, hexecuted, hruns⟩ := hleads.exists_ok id
  exact ⟨p, l, os, k, hbegin, hintake, hexecuted, Pass.execute_spec (hruns.sound hl)⟩

/-- The primary cannot be called back before it moves; the other commands are carried out. -/
def contested : Trigger :=
  { rearranged with commands := .cancel ⟨"x", 0⟩ "a" true :: rearranged.commands }

/-- The first of the four commands is rejected, and the pass does the same without it. -/
theorem reachable_execute_contested :
    (∃ p l os k, Pass.begin joinedCluster {} contested.time = .ok p ∧
      Pass.intake contested p = .ok () l ∧
      Pass.executeAll Decider.standard rearranged.commands l = .ok os k ∧
      ∃ o q, Pass.execute [] (.cancel ⟨"x", 0⟩ "b" false) k = .ok o q ∧
        Pass.Handled (.cancel ⟨"x", 0⟩ "b" false) k o q) ∧
    ∃ r, ({ settings := {} } : Allocator).reroute joinedCluster contested = .ok r ∧
      r.outcomes.map (·.isApplied) = [false, true, true, true] ∧
      ({ settings := {} } : Allocator).reroute joinedCluster
          { contested with commands := rearranged.commands } =
        .ok { r with outcomes := r.applied } := by
  have hspec := reachable_execute standardReachable_joinedCluster.reachable contested
  have hrun : (({ settings := {} } : Allocator).reroute joinedCluster contested).toOption.any
      (fun r => r.outcomes.map (·.isApplied) = [false, true, true, true] ∧
        r.applied.map (·.command) = rearranged.commands) = true := by
    decide +kernel
  obtain ⟨r, hr, houtcomes, happlied⟩ := exists_ok_of_any hrun
  obtain ⟨-, hsame⟩ := hspec.2 _ r hr
  rw [happlied] at hsame
  obtain ⟨p, l, os, k, hbegin, hintake, hexecuted, hnext⟩ :=
    hspec.1 {} Decider.standard rearranged.commands
  exact ⟨⟨p, l, os, k, hbegin, hintake, hexecuted, hnext [] _⟩, r, hr, houtcomes, hsame⟩

end ShardAllocation
