/-
Sorting a list by a comparison, keeping the order of equal elements.

* `mem_sortBy` — sorting keeps the elements;
* `perm_sortBy` — and how often each occurs;
* `pairwise_sortBy` — what the comparison implies holds along the sorted list.
-/

namespace ShardAllocation

/-- Puts an element before the first one that it does not exceed. -/
def insertBy {α : Type} (le : α → α → Bool) (a : α) : List α → List α
  | [] => [a]
  | b :: rest => if le a b then a :: b :: rest else b :: insertBy le a rest

/-- The elements in increasing order; equal elements keep their order. -/
def sortBy {α : Type} (le : α → α → Bool) (l : List α) : List α := l.foldr (insertBy le) []

theorem perm_insertBy {α : Type} (le : α → α → Bool) (a : α) (l : List α) :
    (insertBy le a l).Perm (a :: l) := by
  induction l with
  | nil => exact .refl _
  | cons b rest ih =>
    simp only [insertBy]
    split
    · exact .refl _
    · exact (ih.cons b).trans (.swap a b rest)

theorem perm_sortBy {α : Type} (le : α → α → Bool) (l : List α) : (sortBy le l).Perm l := by
  induction l with
  | nil => exact .refl _
  | cons a rest ih => exact (perm_insertBy le a _).trans (ih.cons a)

theorem pairwise_insertBy {α : Type} {le : α → α → Bool} {R : α → α → Prop}
    (htrans : ∀ a b c, R a b → R b c → R a c) (hle : ∀ a b, le a b = true → R a b)
    (hnot : ∀ a b, le a b = false → R b a) (a : α) {l : List α} (h : l.Pairwise R) :
    (insertBy le a l).Pairwise R := by
  induction l with
  | nil => exact List.pairwise_singleton R a
  | cons b rest ih =>
    obtain ⟨hb, hrest⟩ := List.pairwise_cons.mp h
    simp only [insertBy]
    split
    next hab =>
      refine List.pairwise_cons.mpr ⟨fun c hc => ?_, h⟩
      rcases List.mem_cons.mp hc with rfl | hc
      · exact hle a _ hab
      · exact htrans a b c (hle a b hab) (hb c hc)
    next hab =>
      refine List.pairwise_cons.mpr ⟨fun c hc => ?_, ih hrest⟩
      rcases List.mem_cons.mp ((perm_insertBy le a rest).mem_iff.mp hc) with rfl | hc
      · exact hnot _ b (Bool.not_eq_true _ ▸ hab)
      · exact hb c hc

/-- A relation that the comparison decides one way or the other holds along the sorted list. -/
theorem pairwise_sortBy {α : Type} {le : α → α → Bool} {R : α → α → Prop}
    (htrans : ∀ a b c, R a b → R b c → R a c) (hle : ∀ a b, le a b = true → R a b)
    (hnot : ∀ a b, le a b = false → R b a) (l : List α) : (sortBy le l).Pairwise R := by
  induction l with
  | nil => exact .nil
  | cons a rest ih => exact pairwise_insertBy htrans hle hnot a ih

theorem mem_sortBy {α : Type} (le : α → α → Bool) {l : List α} {a : α} :
    a ∈ sortBy le l ↔ a ∈ l :=
  (perm_sortBy le l).mem_iff

end ShardAllocation
