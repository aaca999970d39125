/-
The attempts that a history keeps in the long run.

A history is built up from the empty one by recording attempts and by forgetting those of an
index.  An attempt is accepted if it is news when it comes.  Beside the history runs the list
of all attempts of a shard that were accepted since its index was last removed, and what the
history keeps is the end of that list: an attempt that comes in when the history is full drops
the oldest one, whatever its role.

* `Step.apply`, `Step.accept`, `ofSteps`, `accepted` — the history and the list beside it;
* `kept_rtake` — dropping the oldest attempt keeps the end of the list;
* `attempts_ofSteps` — the history keeps the end of what was accepted;
* `Collapsed.note` — two attempts of one role in a row stay different;
* `isNews_iff_record_ne` — an attempt is accepted exactly if it changes the history;
* `ofSteps_keeps` — all of these together.
-/
import Mathlib.Data.List.DropRight
import ShardAllocation.Proofs.History

namespace ShardAllocation

namespace History

/-! ### The end of a list of attempts -/

section

variable {l : List Attempt} {a : Attempt}

theorem kept_rtake (l : List Attempt) :
    kept (l.rtake mostAttempts) = l.rtake (mostAttempts - 1) := by
  have hmost : mostAttempts = 16 := rfl
  unfold kept List.rtake
  rw [List.length_drop, List.tail_drop]
  split
  · exact congrArg (l.drop ·) (by omega)
  · exact congrArg (l.drop ·) (by omega)

theorem length_rtake (n : Nat) (l : List Attempt) : (l.rtake n).length = min n l.length := by
  rw [List.rtake, List.length_drop]
  omega

theorem rtake_of_length_le {n : Nat} (h : l.length ≤ n) : l.rtake n = l := by
  rw [List.rtake, Nat.sub_eq_zero_of_le h, List.drop_zero]

theorem kept_suffix (l : List Attempt) : kept l <:+ l := by
  unfold kept
  split
  · exact List.tail_suffix l
  · exact List.suffix_refl l

theorem note_ne (h : latest? l a.primary ≠ some a) : note l a ≠ l := by
  intro hsame
  have hlatest := latest?_note l a
  rw [hsame] at hlatest
  exact h hlatest

/-! ### Attempts of one role in a row -/

/-- Two attempts of one role with none of that role between them are different. -/
def Collapsed (l : List Attempt) : Prop :=
  ∀ earlier x between y later, l = earlier ++ x :: (between ++ y :: later) →
    x.primary = y.primary → (∀ b ∈ between, b.primary ≠ x.primary) → x ≠ y

namespace Collapsed

theorem nil : Collapsed [] := by
  intro earlier x between y later hl
  cases earlier <;> cases hl

/-- What is left of the attempts when older ones are dropped. -/
theorem of_suffix {m : List Attempt} (hl : Collapsed l) (hm : m <:+ l) : Collapsed m := by
  obtain ⟨dropped, rfl⟩ := hm
  intro earlier x between y later hm
  exact hl (dropped ++ earlier) x between y later (by rw [hm, List.append_assoc])

/-- An attempt with none of its role after it is the latest one for that role. -/
theorem latest?_of_last (earlier : List Attempt) {x : Attempt} {between : List Attempt}
    (h : ∀ b ∈ between, b.primary ≠ x.primary) :
    latest? (earlier ++ x :: between) x.primary = some x := by
  have hnone : between.reverse.find? (fun b => b.primary == x.primary) = none := by
    simpa using h
  simp [latest?, List.find?_append, hnone]

theorem note (hl : Collapsed l) (a : Attempt) : Collapsed (note l a) := by
  by_cases hlatest : latest? l a.primary = some a
  · rw [note_of_latest hlatest]
    exact hl
  · rw [note_of_news hlatest]
    intro earlier x between y later hsplit hrole hbetween
    rcases List.eq_nil_or_concat later with rfl | ⟨init, z, rfl⟩
    · -- the later of the two is the new one, so the earlier one was the latest for its role
      have hends : kept l ++ [a] = (earlier ++ x :: between) ++ [y] := by
        rw [hsplit, List.append_assoc, List.cons_append]
      obtain ⟨hkept, hlast⟩ := List.append_inj' hends rfl
      obtain rfl : a = y := List.singleton_inj.mp hlast
      have hfound : latest? (kept l) a.primary = some x := by
        rw [hkept, ← hrole]
        exact latest?_of_last earlier hbetween
      intro hsame
      rcases latest?_kept l a.primary with hold | hold
      · exact hlatest (hold.symm.trans (hsame ▸ hfound))
      · rw [hfound] at hold
        cases hold
    · have hends : kept l ++ [a] = (earlier ++ x :: (between ++ y :: init)) ++ [z] := by
        rw [hsplit]
        simp
      obtain ⟨hkept, -⟩ := List.append_inj' hends rfl
      exact hl.of_suffix (kept_suffix l) earlier x between y init hkept hrole hbetween

end Collapsed

end

/-! ### Steps of a history -/

/-- A step of a history. -/
inductive Step where
  | record (s : ShardId) (a : Attempt)
  | removeIndex (index : String)
  deriving DecidableEq

namespace Step

/-- The history after a step. -/
def apply (h : History) : Step → History
  | record s a => h.record s a
  | removeIndex index => h.withoutIndex index

/-- What a step makes of the attempts of a shard that were accepted since its index was last
removed. -/
def accept (h : History) (s : ShardId) (l : List Attempt) : Step → List Attempt
  | record t a => if t = s ∧ h.isNews t a = true then l ++ [a] else l
  | removeIndex index => if s.index = index then [] else l

end Step

/-- The history after some steps from the empty one. -/
def ofSteps (steps : List Step) : History := steps.foldl Step.apply {}

/-- The history and the accepted attempts of a shard after some steps. -/
def ledger (s : ShardId) (steps : List Step) : History × List Attempt :=
  steps.foldl (fun book step => (step.apply book.1, step.accept book.1 s book.2)) ({}, [])

/-- The attempts of a shard that were accepted since its index was last removed, the oldest
first. -/
def accepted (s : ShardId) (steps : List Step) : List Attempt := (ledger s steps).2

variable {h : History} {s t : ShardId} {a : Attempt} {l : List Attempt}

theorem ofSteps_append (steps : List Step) (step : Step) :
    ofSteps (steps ++ [step]) = step.apply (ofSteps steps) := by
  rw [ofSteps, List.foldl_append]
  rfl

theorem ledger_fst (s : ShardId) (steps : List Step) : (ledger s steps).1 = ofSteps steps := by
  induction steps using List.reverseRecOn with
  | nil => rfl
  | append_singleton steps step ih =>
    rw [ofSteps_append, ledger, List.foldl_append, ← ih]
    rfl

theorem accepted_append (s : ShardId) (steps : List Step) (step : Step) :
    accepted s (steps ++ [step]) = step.accept (ofSteps steps) s (accepted s steps) := by
  rw [← ledger_fst s, accepted, ledger, List.foldl_append]
  rfl

theorem get?_withoutIndex (h : History) (index : String) (s : ShardId) :
    (h.withoutIndex index).shards.get? s =
      if s.index = index then none else h.shards.get? s := by
  simp only [withoutIndex, SortedMap.get?_filter]
  cases h.shards.get? s <;> by_cases hs : s.index = index <;> simp [hs]

theorem attempts_withoutIndex (h : History) (index : String) (s : ShardId) :
    (h.withoutIndex index).attempts s = if s.index = index then [] else h.attempts s := by
  rw [attempts, get?_withoutIndex]
  split
  · rfl
  · rfl

theorem isNews_iff : h.isNews s a = true ↔ latest? (h.attempts s) a.primary ≠ some a := bne_iff_ne

/-- A step keeps of a shard the end of what was accepted. -/
theorem Step.attempts_apply (step : Step) (hl : h.attempts s = l.rtake mostAttempts) :
    (step.apply h).attempts s = (step.accept h s l).rtake mostAttempts := by
  cases step with
  | record t a =>
    simp only [apply, accept, attempts_record]
    by_cases hts : t = s
    · subst hts
      rw [if_pos rfl]
      by_cases hnews : h.isNews t a = true
      · rw [if_pos ⟨rfl, hnews⟩, note_of_news (isNews_iff.mp hnews), hl, kept_rtake]
        exact (List.rtake_concat_succ l _ a).symm
      · rw [if_neg fun hboth => hnews hboth.2, ← hl]
        exact note_of_latest (not_not.mp (mt isNews_iff.mpr hnews))
    · rw [if_neg hts, if_neg fun hboth => hts hboth.1, hl]
  | removeIndex index =>
    simp only [apply, accept, attempts_withoutIndex]
    split
    · rfl
    · exact hl

theorem attempts_ofSteps (steps : List Step) (s : ShardId) :
    (ofSteps steps).attempts s = (accepted s steps).rtake mostAttempts := by
  induction steps using List.reverseRecOn with
  | nil => rfl
  | append_singleton steps step ih =>
    rw [ofSteps_append, accepted_append]
    exact step.attempts_apply ih

theorem Step.collapsed_apply (step : Step) (hl : Collapsed (h.attempts s)) :
    Collapsed ((step.apply h).attempts s) := by
  cases step with
  | record t a =>
    simp only [apply, attempts_record]
    split
    · exact hl.note a
    · exact hl
  | removeIndex index =>
    simp only [apply, attempts_withoutIndex]
    split
    · exact Collapsed.nil
    · exact hl

theorem collapsed_ofSteps (steps : List Step) (s : ShardId) :
    Collapsed ((ofSteps steps).attempts s) := by
  induction steps using List.reverseRecOn with
  | nil => exact Collapsed.nil
  | append_singleton steps step ih =>
    rw [ofSteps_append]
    exact step.collapsed_apply ih

/-! ### The shards that are listed -/

/-- No shard is listed without an attempt. -/
def NoneEmpty (h : History) : Prop := ∀ s, h.shards.get? s ≠ some []

theorem NoneEmpty.contains_iff (hnone : NoneEmpty h) :
    h.shards.contains s = true ↔ h.attempts s ≠ [] := by
  have hs := hnone s
  rw [SortedMap.contains, attempts]
  cases hget : h.shards.get? s with
  | none => simp
  | some l => simpa [hget] using hs

theorem NoneEmpty.apply (hnone : NoneEmpty h) (step : Step) : NoneEmpty (step.apply h) := by
  intro s
  cases step with
  | record t a =>
    show (h.record t a).shards.get? s ≠ some []
    unfold record
    split
    · rw [SortedMap.get?_insert, trim_append]
      split
      · simp
      · exact hnone s
    · exact hnone s
  | removeIndex index =>
    show (h.withoutIndex index).shards.get? s ≠ some []
    rw [get?_withoutIndex]
    split
    · simp
    · exact hnone s

theorem noneEmpty_ofSteps (steps : List Step) : NoneEmpty (ofSteps steps) := by
  induction steps using List.reverseRecOn with
  | nil => exact fun s hs => nomatch hs
  | append_singleton steps step ih =>
    rw [ofSteps_append]
    exact ih.apply step

/-! ### What a history keeps -/

theorem record_of_not_news (hnews : h.isNews s a = false) : h.record s a = h :=
  if_neg (Bool.eq_false_iff.mp hnews)

/-- An attempt is accepted exactly if it changes the history: what it adds at the end cannot make
up for the attempt that it drops. -/
theorem isNews_iff_record_ne : h.isNews s a = true ↔ h.record s a ≠ h := by
  constructor
  · intro hnews hsame
    have hattempts := attempts_record h s s a
    rw [hsame, if_pos rfl] at hattempts
    exact note_ne (isNews_iff.mp hnews) hattempts.symm
  · intro hchanged
    by_contra hnews
    exact hchanged (record_of_not_news (Bool.eq_false_iff.mpr hnews))

theorem isNews_record (h : History) (s : ShardId) (a : Attempt) :
    (h.record s a).isNews s a = false := by
  refine Bool.eq_false_iff.mpr fun hnews => isNews_iff.mp hnews ?_
  rw [attempts_record, if_pos rfl]
  exact latest?_note _ a

/-- The history keeps of every shard the latest attempts out of those that were accepted. -/
structure Keeps (h : History) (accepted : ShardId → List Attempt) : Prop where
  /-- The latest sixteen attempts are kept, in the order in which they came. -/
  latest : ∀ s, h.attempts s = (accepted s).rtake 16
  all : ∀ s, (accepted s).length ≤ 16 → h.attempts s = accepted s
  listed : ∀ s, h.shards.contains s = true ↔ accepted s ≠ []
  bounds : ∀ s, h.shards.contains s = true →
    1 ≤ (h.attempts s).length ∧ (h.attempts s).length ≤ 16
  collapsed : ∀ s, Collapsed (h.attempts s)
  /-- An attempt is accepted if it differs from the latest one of its role, and only then. -/
  news : ∀ s a, h.isNews s a = true ↔ latest? (h.attempts s) a.primary ≠ some a
  changed : ∀ s a, h.isNews s a = true ↔ h.record s a ≠ h
  again : ∀ s a, (h.record s a).isNews s a = false ∧ (h.record s a).record s a = h.record s a

/-- After any steps the history keeps the latest sixteen of the attempts that were accepted for a
shard since its index was last removed. -/
theorem ofSteps_keeps (steps : List Step) : Keeps (ofSteps steps) (accepted · steps) := by
  have hlatest := attempts_ofSteps steps
  have hlength : ∀ s, ((ofSteps steps).attempts s).length = min 16 (accepted s steps).length :=
    fun s => (congrArg List.length (hlatest s)).trans (length_rtake 16 _)
  have hlisted : ∀ s, (ofSteps steps).shards.contains s = true ↔ accepted s steps ≠ [] := by
    intro s
    rw [(noneEmpty_ofSteps steps).contains_iff, ← List.length_pos_iff, hlength,
      ← List.length_pos_iff]
    omega
  refine {
    latest := hlatest
    all := fun s hall => (hlatest s).trans (rtake_of_length_le hall)
    listed := hlisted
    bounds := fun s hs => ?_
    collapsed := collapsed_ofSteps steps
    news := fun s a => isNews_iff
    changed := fun s a => isNews_iff_record_ne
    again := fun s a => ⟨isNews_record _ s a, record_of_not_news (isNews_record _ s a)⟩ }
  have hpos := List.length_pos_iff.mpr ((hlisted s).mp hs)
  rw [hlength]
  omega

/-- Sixteen attempts for the replica drop the only one for the primary, which is news again. -/
example :
    let s : ShardId := ⟨"logs", 0⟩
    let replica (n : Nat) : Step :=
      .record s ⟨false, .no, [⟨s!"node{n}", .no, []⟩]⟩
    let steps := Step.record s ⟨true, .no, []⟩ :: (List.range 16).map replica
    (accepted s steps).length = 17 ∧ ((ofSteps steps).attempts s).all (!·.primary) ∧
      (ofSteps steps).isNews s ⟨true, .no, []⟩ := by
  decide +kernel

end History

end ShardAllocation
