/-
Names of shards and nodes.

A shard is named by its index and its number in the index.  Shards are ordered by index
name, then by number; names compare by code point.
-/

namespace ShardAllocation

/-- The name of a data node. -/
abbrev NodeId := String

/-- One logical shard: the name of its index and its number there. -/
structure ShardId where
  index : String
  number : Nat
  deriving DecidableEq, Repr

namespace ShardId

/-- The written form, such as `[orders][2]`. -/
def text (s : ShardId) : String := s!"[{s.index}][{s.number}]"

instance : ToString ShardId := ⟨text⟩

instance : Inhabited ShardId := ⟨⟨"", 0⟩⟩

/-- Shards are ordered by index name, then by number. -/
instance : Ord ShardId := ⟨compareLex (compareOn index) (compareOn number)⟩

instance : Std.TransOrd ShardId :=
  inferInstanceAs (Std.TransCmp (compareLex (compareOn index) (compareOn number)))

instance : Std.LawfulEqOrd ShardId where
  compare_self {a} := by
    show compareLex (compareOn index) (compareOn number) a a = .eq
    simp [compareLex, compareOn]
  eq_of_compare {a b} h := by
    have h : compareLex (compareOn index) (compareOn number) a b = .eq := h
    simp only [compareLex, compareOn, Ordering.then_eq_eq,
      Std.LawfulEqOrd.compare_eq_iff_eq] at h
    cases a
    cases b
    simp_all

end ShardId

end ShardAllocation
