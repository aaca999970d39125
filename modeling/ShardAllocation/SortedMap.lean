/-
Finite maps kept as a list of entries in strictly increasing key order.

The order is part of the type, so two maps with the same lookups are equal and
every walk over a map visits its keys in increasing order:

* `get?_insert`, `get?_erase`, `get?_modify` — what each operation does to a lookup;
* `mem_entries_iff` — the entries are exactly the pairs that a lookup finds;
* `ext_get?` — lookups determine the map.

A set is a map to the one-point type.
-/

namespace ShardAllocation

/-- A finite map whose entries are listed in strictly increasing key order. -/
structure SortedMap (κ : Type) (β : Type) [Ord κ] where
  entries : List (κ × β)
  sorted : entries.Pairwise (fun a b => compare a.1 b.1 = .lt)

namespace SortedMap

variable {κ β : Type} [Ord κ]

/-- The value stored under `k` in an ordered list of entries. -/
def findEntry (k : κ) : List (κ × β) → Option β
  | [] => none
  | e :: rest =>
    match compare k e.1 with
    | .lt => none
    | .eq => some e.2
    | .gt => findEntry k rest

/-- Puts `b` under `k`, keeping the order and replacing an entry of the same key. -/
def insertEntry (k : κ) (b : β) : List (κ × β) → List (κ × β)
  | [] => [(k, b)]
  | e :: rest =>
    match compare k e.1 with
    | .lt => (k, b) :: e :: rest
    | .eq => (k, b) :: rest
    | .gt => e :: insertEntry k b rest

/-- Removes the entry of `k`, if any. -/
def eraseEntry (k : κ) : List (κ × β) → List (κ × β)
  | [] => []
  | e :: rest =>
    match compare k e.1 with
    | .lt => e :: rest
    | .eq => rest
    | .gt => e :: eraseEntry k rest

theorem mem_insertEntry {k : κ} {b : β} {l : List (κ × β)} {e : κ × β}
    (h : e ∈ insertEntry k b l) : e = (k, b) ∨ e ∈ l := by
  induction l with
  | nil => simpa [insertEntry] using h
  | cons a rest ih =>
    simp only [insertEntry] at h
    split at h
    · simpa using h
    · rcases List.mem_cons.mp h with h | h
      · exact .inl h
      · exact .inr (List.mem_cons_of_mem _ h)
    · rcases List.mem_cons.mp h with h | h
      · exact .inr (h ▸ List.mem_cons_self ..)
      · rcases ih h with h | h
        · exact .inl h
        · exact .inr (List.mem_cons_of_mem _ h)

theorem eraseEntry_sublist (k : κ) (l : List (κ × β)) : (eraseEntry k l).Sublist l := by
  induction l with
  | nil => exact .refl _
  | cons a rest ih =>
    simp only [eraseEntry]
    split
    · exact .refl _
    · exact List.sublist_cons_self ..
    · exact ih.cons_cons _

variable [Std.TransOrd κ]

theorem pairwise_insertEntry [Std.LawfulEqOrd κ] (k : κ) (b : β) {l : List (κ × β)}
    (h : l.Pairwise (fun a b => compare a.1 b.1 = .lt)) :
    (insertEntry k b l).Pairwise (fun a b => compare a.1 b.1 = .lt) := by
  induction l with
  | nil => simp [insertEntry]
  | cons a rest ih =>
    obtain ⟨ha, hrest⟩ := List.pairwise_cons.mp h
    simp only [insertEntry]
    split
    next hlt =>
      refine List.pairwise_cons.mpr ⟨fun e he => ?_, h⟩
      rcases List.mem_cons.mp he with rfl | he
      · exact hlt
      · exact Std.TransCmp.lt_trans hlt (ha e he)
    next heq =>
      have hk : k = a.1 := Std.LawfulEqOrd.eq_of_compare heq
      exact List.pairwise_cons.mpr ⟨fun e he => hk ▸ ha e he, hrest⟩
    next hgt =>
      refine List.pairwise_cons.mpr ⟨fun e he => ?_, ih hrest⟩
      rcases mem_insertEntry he with rfl | he
      · exact Std.OrientedCmp.lt_of_gt hgt
      · exact ha e he

/-- The map without entries. -/
def empty : SortedMap κ β := ⟨[], .nil⟩

instance : EmptyCollection (SortedMap κ β) := ⟨empty⟩

instance : Inhabited (SortedMap κ β) := ⟨empty⟩

instance [DecidableEq κ] [DecidableEq β] : DecidableEq (SortedMap κ β) := fun m n =>
  decidable_of_iff (m.entries = n.entries)
    ⟨fun h => by cases m; cases n; cases h; rfl, fun h => h ▸ rfl⟩

/-- The value under `k`. -/
def get? (m : SortedMap κ β) (k : κ) : Option β := findEntry k m.entries

/-- Whether `k` has a value. -/
def contains (m : SortedMap κ β) (k : κ) : Bool := (m.get? k).isSome

/-- The keys in increasing order. -/
def keys (m : SortedMap κ β) : List κ := m.entries.map (·.1)

/-- The values in increasing order of their keys. -/
def values (m : SortedMap κ β) : List β := m.entries.map (·.2)

/-- The number of keys. -/
def size (m : SortedMap κ β) : Nat := m.entries.length

/-- Whether the map has no entry. -/
def isEmpty (m : SortedMap κ β) : Bool := m.entries.isEmpty

/-- Stores `b` under `k`; an earlier value of `k` is replaced. -/
def insert [Std.LawfulEqOrd κ] (m : SortedMap κ β) (k : κ) (b : β) : SortedMap κ β :=
  ⟨insertEntry k b m.entries, pairwise_insertEntry k b m.sorted⟩

/-- Forgets `k`. -/
def erase (m : SortedMap κ β) (k : κ) : SortedMap κ β :=
  ⟨eraseEntry k m.entries, m.sorted.sublist (eraseEntry_sublist k m.entries)⟩

/-- Applies `f` to the value under `k`, if there is one. -/
def modify [Std.LawfulEqOrd κ] (m : SortedMap κ β) (k : κ) (f : β → β) : SortedMap κ β :=
  match m.get? k with
  | some b => m.insert k (f b)
  | none => m

/-- Keeps the entries that satisfy `p`. -/
def filter (m : SortedMap κ β) (p : κ → β → Bool) : SortedMap κ β :=
  ⟨m.entries.filter (fun e => p e.1 e.2), m.sorted.sublist List.filter_sublist⟩

/-- The map of a list of pairs; of two pairs with one key the later wins. -/
def ofList [Std.LawfulEqOrd κ] (l : List (κ × β)) : SortedMap κ β :=
  l.foldl (fun m e => m.insert e.1 e.2) empty

section Lookup

omit [Std.TransOrd κ] in
theorem findEntry_eq_none_of_lt {k : κ} {l : List (κ × β)}
    (h : ∀ e ∈ l, compare k e.1 = .lt) : findEntry k l = none := by
  cases l with
  | nil => rfl
  | cons a rest => simp [findEntry, h a (List.mem_cons_self ..)]

variable [Std.LawfulEqOrd κ]

theorem findEntry_insertEntry (k j : κ) (b : β) (l : List (κ × β)) :
    findEntry j (insertEntry k b l) = if compare j k = .eq then some b else findEntry j l := by
  induction l with
  | nil =>
    simp only [insertEntry, findEntry]
    cases h : compare j k <;> simp
  | cons a rest ih =>
    simp only [insertEntry]
    split
    next hlt =>
      simp only [findEntry]
      cases h : compare j k with
      | eq => simp
      | lt => simp [Std.TransCmp.lt_trans h hlt]
      | gt => simp
    next heq =>
      have hk : k = a.1 := Std.LawfulEqOrd.eq_of_compare heq
      simp only [findEntry, ← hk]
      cases h : compare j k <;> simp
    next hgt =>
      simp only [findEntry, ih]
      cases h : compare j k with
      | eq =>
        have hj : j = k := Std.LawfulEqOrd.eq_of_compare h
        subst hj
        simp [hgt]
      | lt => simp
      | gt => simp

theorem findEntry_eraseEntry (k j : κ) {l : List (κ × β)}
    (hl : l.Pairwise (fun a b => compare a.1 b.1 = .lt)) :
    findEntry j (eraseEntry k l) = if compare j k = .eq then none else findEntry j l := by
  induction l with
  | nil => simp [eraseEntry, findEntry]
  | cons a rest ih =>
    obtain ⟨ha, hrest⟩ := List.pairwise_cons.mp hl
    simp only [eraseEntry]
    split
    next hlt =>
      cases h : compare j k with
      | eq =>
        have hj : j = k := Std.LawfulEqOrd.eq_of_compare h
        subst hj
        simp [findEntry, hlt]
      | lt => simp
      | gt => simp
    next heq =>
      have hk : k = a.1 := Std.LawfulEqOrd.eq_of_compare heq
      cases h : compare j k with
      | eq =>
        have hj : j = k := Std.LawfulEqOrd.eq_of_compare h
        subst hj
        simpa using findEntry_eq_none_of_lt (fun e he => hk ▸ ha e he)
      | lt =>
        have : ∀ e ∈ rest, compare j e.1 = .lt :=
          fun e he => Std.TransCmp.lt_trans h (hk ▸ ha e he)
        simp [findEntry, ← hk, h, findEntry_eq_none_of_lt this]
      | gt => simp [findEntry, ← hk, h]
    next hgt =>
      simp only [findEntry, ih hrest]
      cases h : compare j k with
      | eq =>
        have hj : j = k := Std.LawfulEqOrd.eq_of_compare h
        subst hj
        simp [hgt]
      | lt => simp
      | gt => simp

omit [Std.TransOrd κ] [Std.LawfulEqOrd κ] in
@[simp] theorem get?_empty (k : κ) : (empty : SortedMap κ β).get? k = none := rfl

variable [DecidableEq κ]

theorem get?_insert (m : SortedMap κ β) (k j : κ) (b : β) :
    (m.insert k b).get? j = if j = k then some b else m.get? j := by
  simp only [get?, insert, findEntry_insertEntry, Std.LawfulEqOrd.compare_eq_iff_eq]

@[simp] theorem get?_insert_self (m : SortedMap κ β) (k : κ) (b : β) :
    (m.insert k b).get? k = some b := by
  simp [get?_insert]

theorem get?_insert_of_ne (m : SortedMap κ β) {k j : κ} (h : j ≠ k) (b : β) :
    (m.insert k b).get? j = m.get? j := by
  simp [get?_insert, h]

theorem get?_erase (m : SortedMap κ β) (k j : κ) :
    (m.erase k).get? j = if j = k then none else m.get? j := by
  simp only [get?, erase, findEntry_eraseEntry k j m.sorted, Std.LawfulEqOrd.compare_eq_iff_eq]

@[simp] theorem get?_erase_self (m : SortedMap κ β) (k : κ) : (m.erase k).get? k = none := by
  simp [get?_erase]

theorem get?_erase_of_ne (m : SortedMap κ β) {k j : κ} (h : j ≠ k) :
    (m.erase k).get? j = m.get? j := by
  simp [get?_erase, h]

theorem get?_modify (m : SortedMap κ β) (k j : κ) (f : β → β) :
    (m.modify k f).get? j = if j = k then (m.get? j).map f else m.get? j := by
  unfold modify
  split
  next b hb =>
    rw [get?_insert]
    split
    next h => simp [h, hb]
    next => rfl
  next hb =>
    split
    next h => simp [h, hb]
    next => rfl

omit [DecidableEq κ] in
theorem findEntry_eq_some_iff {k : κ} {b : β} {l : List (κ × β)}
    (hl : l.Pairwise (fun a b => compare a.1 b.1 = .lt)) :
    findEntry k l = some b ↔ (k, b) ∈ l := by
  induction l with
  | nil => simp [findEntry]
  | cons a rest ih =>
    obtain ⟨ha, hrest⟩ := List.pairwise_cons.mp hl
    simp only [findEntry, List.mem_cons]
    split
    next hlt =>
      refine ⟨fun h => by simp at h, fun h => ?_⟩
      rcases h with h | h
      · subst h
        simp at hlt
      · have := Std.TransCmp.lt_trans hlt (ha _ h)
        simp at this
    next heq =>
      have hk : k = a.1 := Std.LawfulEqOrd.eq_of_compare heq
      constructor
      · intro h
        left
        cases a
        simp_all
      · intro h
        rcases h with h | h
        · simp [← h]
        · have := hk ▸ ha _ h
          simp at this
    next hgt =>
      rw [ih hrest]
      refine ⟨.inr, fun h => ?_⟩
      rcases h with h | h
      · subst h
        simp at hgt
      · exact h

omit [DecidableEq κ] in
/-- The entries are exactly the pairs that a lookup finds. -/
theorem mem_entries_iff {m : SortedMap κ β} {k : κ} {b : β} :
    (k, b) ∈ m.entries ↔ m.get? k = some b :=
  (findEntry_eq_some_iff m.sorted).symm

omit [DecidableEq κ] in
theorem mem_keys_iff {m : SortedMap κ β} {k : κ} : k ∈ m.keys ↔ m.contains k = true := by
  simp only [keys, List.mem_map, contains, Option.isSome_iff_exists, ← mem_entries_iff]
  constructor
  · rintro ⟨⟨j, b⟩, h, rfl⟩
    exact ⟨b, h⟩
  · rintro ⟨b, h⟩
    exact ⟨(k, b), h, rfl⟩

omit [DecidableEq κ] in
theorem mem_values_iff {m : SortedMap κ β} {b : β} : b ∈ m.values ↔ ∃ k, m.get? k = some b := by
  simp only [values, List.mem_map, ← mem_entries_iff]
  constructor
  · rintro ⟨⟨k, b⟩, h, rfl⟩
    exact ⟨k, h⟩
  · rintro ⟨k, h⟩
    exact ⟨(k, b), h, rfl⟩

omit [Std.TransOrd κ] [DecidableEq κ] in
theorem nodup_keys (m : SortedMap κ β) : m.keys.Nodup := by
  refine List.pairwise_map.mpr (m.sorted.imp fun {a b} hlt heq => ?_)
  rw [heq, Std.LawfulEqOrd.compare_eq_iff_eq.mpr rfl] at hlt
  cases hlt

theorem contains_insert (m : SortedMap κ β) (k j : κ) (b : β) :
    (m.insert k b).contains j = (decide (j = k) || m.contains j) := by
  simp only [contains, get?_insert]
  split <;> simp [*]

theorem contains_erase (m : SortedMap κ β) (k j : κ) :
    (m.erase k).contains j = (decide (j ≠ k) && m.contains j) := by
  simp only [contains, get?_erase]
  split <;> simp [*]

omit [Std.TransOrd κ] [Std.LawfulEqOrd κ] [DecidableEq κ] in
theorem eq_empty_of_isEmpty {m : SortedMap κ β} (h : m.isEmpty = true) : m = empty := by
  obtain ⟨entries, hsorted⟩ := m
  obtain rfl : entries = [] := List.isEmpty_iff.mp h
  rfl

omit [DecidableEq κ] in
theorem isEmpty_eq_false_iff {m : SortedMap κ β} :
    m.isEmpty = false ↔ ∃ k, m.contains k = true := by
  simp only [← mem_keys_iff, keys, isEmpty, List.isEmpty_eq_false_iff_exists_mem, List.mem_map]
  constructor
  · rintro ⟨e, he⟩
    exact ⟨e.1, e, he, rfl⟩
  · rintro ⟨_, e, he, -⟩
    exact ⟨e, he⟩

omit [DecidableEq κ] in
theorem get?_filter (m : SortedMap κ β) (p : κ → β → Bool) (k : κ) :
    (m.filter p).get? k = (m.get? k).filter (p k) := by
  refine Option.ext fun b => ?_
  rw [← mem_entries_iff, Option.filter_eq_some_iff, ← mem_entries_iff]
  exact List.mem_filter

/-- A map of a list holds only pairs of the list. -/
theorem mem_of_get?_ofList {l : List (κ × β)} {k : κ} {b : β}
    (h : (ofList l).get? k = some b) : (k, b) ∈ l := by
  have key : ∀ (l : List (κ × β)) (m : SortedMap κ β),
      (l.foldl (fun m e => m.insert e.1 e.2) m).get? k = some b →
        (k, b) ∈ l ∨ m.get? k = some b := by
    intro l
    induction l with
    | nil => exact fun m h => .inr h
    | cons e rest ih =>
      intro m h
      rcases ih _ h with h | h
      · exact .inl (List.mem_cons_of_mem _ h)
      · rw [get?_insert] at h
        split at h
        · rename_i hk
          cases h
          exact .inl (hk ▸ List.mem_cons_self ..)
        · exact .inr h
  rcases key l empty h with h | h
  · exact h
  · cases h

/-- A map of a list has the keys of the list. -/
theorem contains_ofList (l : List (κ × β)) (k : κ) :
    (ofList l).contains k = decide (k ∈ l.map (·.1)) := by
  have key : ∀ (l : List (κ × β)) (m : SortedMap κ β),
      (l.foldl (fun m e => m.insert e.1 e.2) m).contains k =
        (decide (k ∈ l.map (·.1)) || m.contains k) := by
    intro l
    induction l with
    | nil => exact fun m => rfl
    | cons e rest ih =>
      intro m
      have hmem : decide (k ∈ (e :: rest).map (·.1)) =
          (decide (k = e.1) || decide (k ∈ rest.map (·.1))) := by
        rw [← Bool.decide_or]
        exact decide_eq_decide.mpr List.mem_cons
      rw [List.foldl_cons, ih, contains_insert, hmem, Bool.or_left_comm, Bool.or_assoc]
  rw [ofList, key, contains, get?_empty, Option.isSome_none, Bool.or_false]

omit [DecidableEq κ] in
/-- Lookups determine the map. -/
theorem ext_get? {m n : SortedMap κ β} (h : ∀ k, m.get? k = n.get? k) : m = n := by
  have key : ∀ {l₁ l₂ : List (κ × β)},
      l₁.Pairwise (fun a b => compare a.1 b.1 = .lt) →
      l₂.Pairwise (fun a b => compare a.1 b.1 = .lt) →
      (∀ e, e ∈ l₁ ↔ e ∈ l₂) → l₁ = l₂ := by
    intro l₁ l₂ h₁ h₂ hmem
    apply List.Perm.eq_of_pairwise _ h₁ h₂
    · refine (List.perm_ext_iff_of_nodup ?_ ?_).mpr hmem
      · exact h₁.imp (fun hlt heq => by subst heq; simp at hlt)
      · exact h₂.imp (fun hlt heq => by subst heq; simp at hlt)
    · intro a b _ _ hab hba
      have := Std.TransCmp.lt_trans hab hba
      simp at this
  obtain ⟨l₁, h₁⟩ := m
  obtain ⟨l₂, h₂⟩ := n
  congr 1
  refine key h₁ h₂ fun ⟨k, b⟩ => ?_
  exact mem_entries_iff (m := ⟨l₁, h₁⟩) |>.trans
    ((iff_of_eq (congrArg (· = some b) (h k))).trans (mem_entries_iff (m := ⟨l₂, h₂⟩)).symm)

end Lookup

end SortedMap

/-- A finite set listed in strictly increasing order. -/
abbrev SortedSet (κ : Type) [Ord κ] := SortedMap κ Unit

namespace SortedSet

variable {κ : Type} [Ord κ] [Std.TransOrd κ] [Std.LawfulEqOrd κ]

/-- Adds `k` to the set. -/
def add (s : SortedSet κ) (k : κ) : SortedSet κ := s.insert k ()

/-- The set of the members of a list. -/
def ofList (l : List κ) : SortedSet κ := l.foldl add SortedMap.empty

variable [DecidableEq κ]

@[simp] theorem contains_add (s : SortedSet κ) (k j : κ) :
    (s.add k).contains j = (decide (j = k) || s.contains j) :=
  SortedMap.contains_insert s k j ()

@[simp] theorem contains_ofList (l : List κ) (k : κ) :
    (ofList l).contains k = decide (k ∈ l) := by
  have hofList : ofList l = SortedMap.ofList (l.map fun j => (j, ())) := by
    rw [SortedMap.ofList, List.foldl_map]
    rfl
  rw [hofList, SortedMap.contains_ofList]
  simp

omit [DecidableEq κ] in
/-- The members determine the set. -/
theorem ext_contains {s t : SortedSet κ} (h : ∀ k, s.contains k = t.contains k) : s = t := by
  refine SortedMap.ext_get? fun k => ?_
  have hk := h k
  simp only [SortedMap.contains] at hk
  cases hs : s.get? k <;> cases ht : t.get? k <;> simp_all

end SortedSet

end ShardAllocation
