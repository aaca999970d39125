import ShardAllocation.CommandLine.Output
import ShardAllocation.Coordinator
import ShardAllocation.Form.Allocation
import ShardAllocation.Form.Settings
import ShardAllocation.Main
import ShardAllocation.Proofs.Attempts
import ShardAllocation.Proofs.ByteSize
import ShardAllocation.Proofs.Cluster.Commands
import ShardAllocation.Proofs.Cluster.Convergence
import ShardAllocation.Proofs.Cluster.DeciderOrder
import ShardAllocation.Proofs.Cluster.DepartedNodes
import ShardAllocation.Proofs.Cluster.EmptyPrimary
import ShardAllocation.Proofs.Cluster.Explanation
import ShardAllocation.Proofs.Cluster.FailedReports
import ShardAllocation.Proofs.Cluster.Fixpoint
import ShardAllocation.Proofs.Cluster.Health
import ShardAllocation.Proofs.Cluster.Limits
import ShardAllocation.Proofs.Cluster.LostData
import ShardAllocation.Proofs.Cluster.Progress
import ShardAllocation.Proofs.Cluster.Rebalancing
import ShardAllocation.Proofs.Cluster.Recovery
import ShardAllocation.Proofs.Cluster.Relocation
import ShardAllocation.Proofs.Cluster.Replay
import ShardAllocation.Proofs.Cluster.Requests
import ShardAllocation.Proofs.Cluster.Resizing
import ShardAllocation.Proofs.Cluster.RoundTrip
import ShardAllocation.Proofs.Cluster.StartedReports
import ShardAllocation.Proofs.Cluster.Survival
import ShardAllocation.Proofs.Cluster.Watermark
import ShardAllocation.Proofs.Coordinator.Answers
import ShardAllocation.Proofs.Coordinator.Publication
import ShardAllocation.Proofs.Coordinator.Retention
import ShardAllocation.Proofs.Routing.Atomicity
import ShardAllocation.Proofs.Shard.Life
