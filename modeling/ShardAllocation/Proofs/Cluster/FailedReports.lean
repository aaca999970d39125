/-
What a report of a failed copy does.

In every pass over a reachable snapshot, whatever reports it took in before, a report of a failed
copy is taken in without a fault and does what its case asks for.  Nodes that left are still in
the view at this point, so copies on them can fail, too, but none of them takes over.

* `reachable_applyFailed` — every report.
-/
import ShardAllocation.Proofs.Cluster.DepartedNodes
import ShardAllocation.Proofs.Pass.Failure

namespace ShardAllocation

/-- A report of a failed copy, after any other reports, changes nothing but the view, and that
as its case asks for. -/
theorem reachable_applyFailed {s : ClusterState} (h : Reachable s) (settings : Settings)
    (time : Instant) (reports : List (StartedReport ⊕ FailedReport)) (r : FailedReport) :
    ∃ p q u, Pass.begin s settings time = .ok p ∧ (reports.forM Pass.takeIn) p = .ok () q ∧
      Pass.applyFailed r q = .ok () u ∧ u = { q with view := u.view } ∧
      View.Failed r.shard r.node (q.unassignedInfo .allocationFailed (some r.reason))
        (q.unassignedInfo .primaryFailed (some s!"primary failed: {r.reason}"))
        q.view u.view := by
  obtain ⟨p, hbegin, hp, -⟩ := h.wellFormed.begin_eq settings time
  obtain ⟨⟨⟩, q, hreports, hq, -⟩ := (Pass.takeIn_leads (F := False) hp reports).exists_ok id
  obtain ⟨u, hrun, hview, hfailed⟩ := Pass.applyFailed_failed hq r
  exact ⟨p, q, u, hbegin, hreports, hrun, hview, hfailed⟩

/-- The primary fails after a report about its replica that is out of date. -/
theorem reachable_applyFailed_primary :
    ∃ p q u, Pass.begin filledCluster {} ⟨1, 0⟩ = .ok p ∧
      ([.inl ⟨⟨"x", 0⟩, "b"⟩].forM Pass.takeIn) p = .ok () q ∧
      Pass.applyFailed ⟨⟨"x", 0⟩, "a", "disk"⟩ q = .ok () u ∧ u = { q with view := u.view } ∧
      View.Failed ⟨"x", 0⟩ "a" (q.unassignedInfo .allocationFailed (some "disk"))
        (q.unassignedInfo .primaryFailed (some "primary failed: disk")) q.view u.view :=
  reachable_applyFailed standardReachable_filledCluster.reachable {} ⟨1, 0⟩
    [.inl ⟨⟨"x", 0⟩, "b"⟩] ⟨⟨"x", 0⟩, "a", "disk"⟩

end ShardAllocation
