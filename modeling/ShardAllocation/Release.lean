/-
The release of the library, as tools report it.
-/

namespace ShardAllocation

namespace Release

/-- The version of the library. -/
def version : String := "0.3.0"

/-- The version together with the name of the library. -/
def description : String := s!"{version} (shardalloc)"

end Release

end ShardAllocation
