/-
Disks that fill up.

A pass brings nothing new to a member past the high watermark, whatever the trigger asks for:
the copies that are there were there before, and those that are being filled were being filled.
Past the low watermark the same holds of a pass without commands.

* `reachable_nothingNew` — every pass over a reachable snapshot.
-/
import ShardAllocation.Proofs.Cluster.Requests
import ShardAllocation.Proofs.Pass.Watermark

namespace ShardAllocation

namespace Passage

variable {a : Allocator} {s : ClusterState} {t : Trigger} {r : RerouteResult} {p m q : Pass}

/-- The disk of a member is past a watermark when the usage that it reported is. -/
theorem past_of_reported (h : Passage a s t r p m q) (henabled : a.settings.disk.enabled = true)
    {n : NodeId} {usage : DiskUsage} (hn : s.members.get? n = some (some usage)) {w : Watermark}
    (hpast : w.isExceededBy usage = true) : p.Past w n := by
  refine ⟨usage, ?_, hpast⟩
  have husage : p.diskUsage? n = some usage := by
    rw [Pass.diskUsage?, h.state, hn]
    rfl
  simp [Decider.watchedUsage, h.settings, henabled, husage]

end Passage

/-- Nothing new comes to a member whose reported usage is past the high watermark, nor without
commands to one past the low watermark. -/
theorem reachable_nothingNew {s : ClusterState} (h : Reachable s) {a : Allocator}
    (hset : a.settings.validate = .ok ()) (henabled : a.settings.disk.enabled = true)
    (hsame : Decider.sameShard ∈ a.deciders) (hdisk : Decider.diskThreshold ∈ a.deciders)
    (t : Trigger) :
    ∃ r, a.reroute s t = .ok r ∧
      ∀ n usage, s.members.get? n = some (some usage) →
        (a.settings.disk.highWatermark.isExceededBy usage = true ∨
          t.commands = [] ∧ a.settings.disk.lowWatermark.isExceededBy usage = true) →
        ∀ shard d, r.state.table.layout shard n = some d →
          ∃ c, s.table.layout shard n = some c ∧
            (d.state = .initializing → c.state = .initializing) := by
  obtain ⟨r, p, m, q, hr, hpass⟩ := Allocator.exists_reroute h.wellFormed hset hsame t
  refine ⟨r, hr, fun n usage hn hexceeded shard => ?_⟩
  obtain ⟨l, k, hcourse⟩ := hpass.course
  have hpast : p.Past p.settings.disk.highWatermark n ∨
      t.commands = [] ∧ p.Past p.settings.disk.lowWatermark n := by
    rw [hpass.settings]
    exact hexceeded.imp (hpass.past_of_reported henabled hn)
      fun hlow => ⟨hlow.1, hpass.past_of_reported henabled hn hlow.2⟩
  have hkept := hcourse.nothingNew hpass.sound hdisk hpast shard
  rwa [hpass.layout_first h.wellFormed, hpass.layout_last] at hkept

/-- The second member joins with a disk that is almost full. -/
def crowdedDisk : ClusterState :=
  joinedCluster.withMembers
    (SortedMap.ofList [("a", some ⟨100, 50⟩), ("b", some ⟨100, 5⟩)])

/-- Commands ask for copies on the second member, and it gets none. -/
theorem reachable_nothingNew_crowdedDisk :
    ∃ r, ({ settings := {} } : Allocator).reroute crowdedDisk rearranged = .ok r ∧
      crowdedDisk.table.layout ⟨"x", 0⟩ "b" = none ∧ r.state.table.layout ⟨"x", 0⟩ "b" = none := by
  have hreachable : Reachable crowdedDisk :=
    (standardReachable_joinedCluster.step (.members _) trivial).reachable
  obtain ⟨r, hr, hnew⟩ := reachable_nothingNew hreachable (a := { settings := {} }) rfl rfl
    List.mem_cons_self (by simp [Decider.standard]) rearranged
  have hempty : crowdedDisk.table.layout ⟨"x", 0⟩ "b" = none := by decide +kernel
  refine ⟨r, hr, hempty, ?_⟩
  have hfull : Watermark.isExceededBy ({} : Settings).disk.highWatermark ⟨100, 5⟩ = true := by
    decide +kernel
  cases hd : r.state.table.layout ⟨"x", 0⟩ "b" with
  | none => rfl
  | some d =>
    obtain ⟨c, hc, -⟩ := hnew "b" ⟨100, 5⟩ (by decide +kernel) (.inl hfull) ⟨"x", 0⟩ d hd
    rw [hempty] at hc
    cases hc

end ShardAllocation
