/-
What a cluster consists of: its member nodes and the declared shape of its indices.
-/
import ShardAllocation.Disk
import ShardAllocation.Shard.Id
import ShardAllocation.SortedMap

namespace ShardAllocation

/-- The member nodes, each with the disk usage it reported, if any. -/
abbrev Membership := SortedMap NodeId (Option DiskUsage)

/-- The declared shape of an index. -/
structure IndexMetadata where
  name : String
  shards : Nat
  replicas : Nat
  deriving DecidableEq, Repr

namespace IndexMetadata

/-- The copies of one shard: the primary and every replica. -/
def copiesPerShard (m : IndexMetadata) : Nat := 1 + m.replicas

/-- The shards of the index in the order of their numbers. -/
def shardIds (m : IndexMetadata) : List ShardId :=
  (List.range m.shards).map (ShardId.mk m.name)

end IndexMetadata

/-- The declared indices by name. -/
abbrev Metadata := SortedMap String IndexMetadata

namespace Metadata

/-- Whether the metadata declares the shard. -/
def knows (m : Metadata) (s : ShardId) : Bool :=
  (m.get? s.index).any (fun index => s.number < index.shards)

end Metadata

end ShardAllocation
