/-
What the history makes of attempts that are repeated.

A pass that can place nothing records the same attempts as the one before, for each shard at
most one per role and the one for the primary first.  An attempt that repeats the latest one
for its role is no news.  But a shard keeps only so many attempts, and the attempt for a
replica may drop the only one for the primary, which is then news once more.  So nothing is
news after the second round, and none is after the first exactly if it leaves an attempt for
every primary that it is about.

* `note`, `attempts_recordAll` — what becomes of the attempts of one shard;
* `recordAll_of_latest` — what is recorded when nothing is news;
* `Orderly` — at most one attempt for each role of a shard, those for primaries first;
* `Orderly.recordAll_second_iff`, `Orderly.recordAll_third` — the round that records nothing.
-/
import Mathlib.Data.List.Pairwise
import ShardAllocation.History

namespace ShardAllocation

namespace History

/-! ### The attempts of one shard -/

/-- The attempts of a shard after one more. -/
def note (l : List Attempt) (a : Attempt) : List Attempt :=
  if latest? l a.primary = some a then l else trim (l ++ [a])

/-- What is kept of the attempts when there is one more. -/
def kept (l : List Attempt) : List Attempt := if mostAttempts ≤ l.length then l.tail else l

variable {l : List Attempt} {a b : Attempt} {primary : Bool} {p r : Option Attempt}

theorem trim_append (l : List Attempt) (a : Attempt) : trim (l ++ [a]) = kept l ++ [a] := by
  unfold trim kept
  rw [List.length_append, List.length_singleton]
  by_cases hfull : mostAttempts ≤ l.length
  · have hne : l ≠ [] := fun hnil => by
      rw [hnil] at hfull
      cases hfull
    rw [if_pos (Nat.lt_succ_of_le hfull), if_pos hfull, List.tail_append_of_ne_nil hne]
  · rw [if_neg (by omega), if_neg hfull]

theorem latest?_append (l : List Attempt) (a : Attempt) (primary : Bool) :
    latest? (l ++ [a]) primary = if a.primary = primary then some a else latest? l primary := by
  rw [latest?, List.reverse_append, List.reverse_singleton, List.singleton_append, List.find?_cons,
    latest?]
  by_cases h : a.primary = primary
  · simp [h]
  · simp [beq_false_of_ne h, h]

theorem latest?_eq_none_iff :
    latest? l primary = none ↔ ∀ x ∈ l, x.primary ≠ primary := by
  simp [latest?]

/-- The oldest attempt is the latest one for its role only if it is the only one. -/
theorem latest?_kept (l : List Attempt) (primary : Bool) :
    latest? (kept l) primary = latest? l primary ∨ latest? (kept l) primary = none := by
  have htail : latest? l.tail primary = latest? l primary ∨ latest? l.tail primary = none := by
    cases l with
    | nil => exact .inl rfl
    | cons x rest =>
      rw [List.tail_cons]
      cases hrest : latest? rest primary with
      | none => exact .inr rfl
      | some y =>
        have hfound : rest.reverse.find? (fun a => a.primary == primary) = some y := hrest
        rw [latest?, List.reverse_cons, List.find?_append, hfound]
        exact .inl rfl
  unfold kept
  split
  · exact htail
  · exact .inl rfl

theorem kept_subset (l : List Attempt) : kept l ⊆ l := by
  unfold kept
  split
  · exact (List.tail_sublist l).subset
  · exact List.Subset.refl l

theorem kept_ne_nil (h : l ≠ []) : kept l ≠ [] := by
  unfold kept
  split
  next hfull =>
    intro hnil
    have hlength := congrArg List.length hnil
    simp only [List.length_tail, List.length_nil, mostAttempts] at hfull hlength
    omega
  next => exact h

theorem note_of_latest (h : latest? l a.primary = some a) : note l a = l := if_pos h

theorem note_of_news (h : latest? l a.primary ≠ some a) : note l a = kept l ++ [a] :=
  (if_neg h).trans (trim_append l a)

/-- An attempt that was noted is the latest one for its role. -/
theorem latest?_note (l : List Attempt) (a : Attempt) : latest? (note l a) a.primary = some a := by
  by_cases h : latest? l a.primary = some a
  · rw [note_of_latest h, h]
  · rw [note_of_news h, latest?_append, if_pos rfl]

theorem foldl_note_of_latest {attempts : List Attempt}
    (h : ∀ a ∈ attempts, latest? l a.primary = some a) : attempts.foldl note l = l := by
  induction attempts with
  | nil => rfl
  | cons a rest ih =>
    rw [List.foldl_cons, note_of_latest (h a List.mem_cons_self)]
    exact ih fun b hb => h b (List.mem_cons_of_mem a hb)

/-! ### One attempt for each role -/

/-- The attempts after one more, if there is one. -/
def noteAny (l : List Attempt) (a : Option Attempt) : List Attempt := a.elim l (note l)

/-- After both roles were noted, the attempt for the replica is the latest one, and that for the
primary as well unless it was dropped. -/
theorem latest?_round (hp : ∀ a ∈ p, a.primary = true) (hr : ∀ a ∈ r, a.primary = false)
    (l : List Attempt) :
    (∀ a ∈ p, latest? (noteAny (noteAny l p) r) true = some a ∨
      latest? (noteAny (noteAny l p) r) true = none) ∧
        ∀ a ∈ r, latest? (noteAny (noteAny l p) r) false = some a := by
  have hnoted : ∀ a ∈ p, latest? (noteAny l p) true = some a := by
    rintro a rfl
    rw [← hp a rfl]
    exact latest?_note l a
  cases r with
  | none => exact ⟨fun a ha => .inl (hnoted a ha), fun a ha => by cases ha⟩
  | some b =>
    have hb := hr b rfl
    constructor
    · intro a ha
      show latest? (note (noteAny l p) b) true = some a ∨ latest? (note (noteAny l p) b) true = none
      by_cases hnews : latest? (noteAny l p) b.primary = some b
      · rw [note_of_latest hnews]
        exact .inl (hnoted a ha)
      · rw [note_of_news hnews, latest?_append, if_neg (by simp [hb]), ← hnoted a ha]
        exact latest?_kept ..
    · rintro a ⟨⟩
      have hlatest := latest?_note (noteAny l p) b
      rwa [hb] at hlatest

/-- Once the attempt for the replica is the latest one, noting the one for the primary does not
drop it. -/
theorem latest?_round_again (hp : ∀ a ∈ p, a.primary = true) (hr : ∀ a ∈ r, a.primary = false)
    (hprimary : ∀ a ∈ p, latest? l true = some a ∨ latest? l true = none)
    (hreplica : ∀ a ∈ r, latest? l false = some a) :
    (∀ a ∈ p, latest? (noteAny (noteAny l p) r) true = some a) ∧
      ∀ a ∈ r, latest? (noteAny (noteAny l p) r) false = some a := by
  have hnoted : ∀ a ∈ p, latest? (noteAny l p) true = some a := by
    rintro a rfl
    rw [← hp a rfl]
    exact latest?_note l a
  cases r with
  | none => exact ⟨hnoted, fun a ha => by cases ha⟩
  | some b =>
    have hb := hr b rfl
    have hkeeps : latest? (noteAny l p) false = some b := by
      cases p with
      | none => exact hreplica b rfl
      | some a =>
        have ha := hp a rfl
        show latest? (note l a) false = some b
        by_cases hnews : latest? l a.primary = some a
        · rw [note_of_latest hnews]
          exact hreplica b rfl
        · rw [note_of_news hnews, latest?_append, if_neg (by simp [ha]), ← hreplica b rfl]
          refine (latest?_kept l false).resolve_right fun hnone => ?_
          -- no attempt is for the primary, so none at all would be kept
          have hno : latest? l true = none :=
            (hprimary a rfl).resolve_left fun h => hnews (by rw [ha]; exact h)
          have hne : l ≠ [] := fun hnil => by
            rw [hnil] at hreplica
            cases hreplica b rfl
          obtain ⟨x, hx⟩ := List.exists_mem_of_ne_nil _ (kept_ne_nil hne)
          have hreplicas := latest?_eq_none_iff.mp hnone x hx
          have hprimaries := latest?_eq_none_iff.mp hno x (kept_subset l hx)
          cases hrole : x.primary with
          | true => exact hprimaries hrole
          | false => exact hreplicas hrole
    have hlatest : latest? (noteAny l p) b.primary = some b := by
      rw [hb]
      exact hkeeps
    show (∀ a ∈ p, latest? (note (noteAny l p) b) true = some a) ∧
      ∀ a ∈ some b, latest? (note (noteAny l p) b) false = some a
    rw [note_of_latest hlatest]
    exact ⟨hnoted, fun a ha => ha ▸ hkeeps⟩

theorem foldl_note_of_same {attempts : List Attempt}
    (h : ∀ a ∈ attempts, ∀ b ∈ attempts, a = b) (l : List Attempt) :
    attempts.foldl note l = noteAny l attempts.head? := by
  cases attempts with
  | nil => rfl
  | cons a rest =>
    rw [List.foldl_cons, List.head?_cons]
    refine foldl_note_of_latest fun b hb => ?_
    rw [h b (List.mem_cons_of_mem a hb) a List.mem_cons_self]
    exact latest?_note l a

theorem mem_head?_of_same {attempts : List Attempt}
    (h : ∀ a ∈ attempts, ∀ b ∈ attempts, a = b) (ha : a ∈ attempts) : a ∈ attempts.head? := by
  cases attempts with
  | nil => cases ha
  | cons b rest => exact congrArg some (h b List.mem_cons_self a ha)

/-! ### Rounds of attempts -/

/-- Records attempts one after the other. -/
def recordAll (h : History) (attempts : List (ShardId × Attempt)) : History :=
  attempts.foldl (fun h a => h.record a.1 a.2) h

/-- The attempts of a shard among others. -/
def ofShard (s : ShardId) (attempts : List (ShardId × Attempt)) : List Attempt :=
  (attempts.filter fun x => x.1 == s).map (·.2)

variable {h : History} {s : ShardId} {round : List (ShardId × Attempt)}

theorem recordAll_append (h : History) (earlier later : List (ShardId × Attempt)) :
    h.recordAll (earlier ++ later) = (h.recordAll earlier).recordAll later :=
  List.foldl_append

theorem attempts_record (h : History) (s t : ShardId) (a : Attempt) :
    (h.record s a).attempts t = if s = t then note (h.attempts t) a else h.attempts t := by
  unfold record isNews
  by_cases hst : s = t
  · subst hst
    rw [if_pos rfl]
    by_cases hlatest : latest? (h.attempts s) a.primary = some a
    · rw [note_of_latest hlatest, hlatest, bne_self_eq_false, if_neg Bool.false_ne_true]
    · rw [note, if_neg hlatest, if_pos (bne_iff_ne.mpr hlatest)]
      show ((h.shards.insert s _).get? s).getD [] = _
      rw [SortedMap.get?_insert_self, Option.getD_some]
  · rw [if_neg hst]
    split
    · rw [attempts, SortedMap.get?_insert_of_ne _ (Ne.symm hst), attempts]
    · rfl

theorem attempts_recordAll (h : History) (round : List (ShardId × Attempt)) (s : ShardId) :
    (h.recordAll round).attempts s = (ofShard s round).foldl note (h.attempts s) := by
  induction round generalizing h with
  | nil => rfl
  | cons x rest ih =>
    have hfirst : (h.recordAll (x :: rest)) = (h.record x.1 x.2).recordAll rest := rfl
    rw [hfirst, ih, attempts_record, ofShard, ofShard, List.filter_cons]
    by_cases hx : x.1 = s <;> simp [hx]

/-- Nothing is recorded when every attempt is the latest one for its role. -/
theorem recordAll_of_latest
    (h' : ∀ x ∈ round, latest? (h.attempts x.1) x.2.primary = some x.2) :
    h.recordAll round = h := by
  induction round with
  | nil => rfl
  | cons x rest ih =>
    have hfirst : h.record x.1 x.2 = h := by
      simp [record, isNews, h' x List.mem_cons_self]
    show (h.record x.1 x.2).recordAll rest = h
    rw [hfirst]
    exact ih fun y hy => h' y (List.mem_cons_of_mem x hy)

/-- The attempts for primaries come first, and there are no two for one role of a shard. -/
structure Orderly (round : List (ShardId × Attempt)) : Prop where
  first : round.Pairwise fun x y => y.2.primary = true → x.2.primary = true
  same : ∀ x ∈ round, ∀ y ∈ round, x.1 = y.1 → x.2.primary = y.2.primary → x.2 = y.2

theorem filter_append_of_first {attempts : List Attempt}
    (h : attempts.Pairwise fun a b => b.primary = true → a.primary = true) :
    attempts.filter (·.primary) ++ attempts.filter (!·.primary) = attempts := by
  induction attempts with
  | nil => rfl
  | cons a rest ih =>
    obtain ⟨hfirst, hrest⟩ := List.pairwise_cons.mp h
    cases ha : a.primary with
    | true => simp [ha, ih hrest]
    | false =>
      -- no attempt after one for a replica is for a primary
      have hreplicas : ∀ b ∈ rest, b.primary = false := fun b hb => by
        by_contra hb'
        rw [hfirst b hb (Bool.not_eq_false _ ▸ hb')] at ha
        cases ha
      have hnone : rest.filter (·.primary) = [] :=
        List.filter_eq_nil_iff.mpr fun b hb => by simp [hreplicas b hb]
      have hall : rest.filter (!·.primary) = rest :=
        List.filter_eq_self.mpr fun b hb => by simp [hreplicas b hb]
      simp [ha, hnone, hall]

namespace Orderly

/-- A round notes at most one attempt for each role of a shard, the primary's first. -/
theorem exists_roles (hround : Orderly round) (s : ShardId) : ∃ p r : Option Attempt,
    (∀ a ∈ p, a.primary = true) ∧ (∀ a ∈ r, a.primary = false) ∧
      (∀ x ∈ round, x.1 = s → x.2 ∈ p ∨ x.2 ∈ r) ∧
        ∀ h : History, (h.recordAll round).attempts s = noteAny (noteAny (h.attempts s) p) r := by
  have hmem : ∀ {a}, a ∈ ofShard s round ↔ ∃ x ∈ round, x.1 = s ∧ x.2 = a := by
    simp [ofShard]
  have hsame : ∀ a ∈ ofShard s round, ∀ b ∈ ofShard s round, a.primary = b.primary → a = b := by
    intro a ha b hb hrole
    obtain ⟨x, hx, hxs, rfl⟩ := hmem.mp ha
    obtain ⟨y, hy, hys, rfl⟩ := hmem.mp hb
    exact hround.same x hx y hy (hxs.trans hys.symm) hrole
  have hsplit := filter_append_of_first
    (List.pairwise_map.mpr (hround.first.filter fun x => x.1 == s))
  have hprimary : ∀ a ∈ (ofShard s round).filter (·.primary), a.primary = true :=
    fun a ha => (List.mem_filter.mp ha).2
  have hreplica : ∀ a ∈ (ofShard s round).filter (!·.primary), a.primary = false :=
    fun a ha => by simpa using (List.mem_filter.mp ha).2
  have hone : ∀ {f : Attempt → Bool} {role : Bool},
      (∀ a ∈ (ofShard s round).filter f, a.primary = role) →
        ∀ a ∈ (ofShard s round).filter f, ∀ b ∈ (ofShard s round).filter f, a = b :=
    fun hrole a ha b hb => hsame a (List.mem_filter.mp ha).1 b (List.mem_filter.mp hb).1
      ((hrole a ha).trans (hrole b hb).symm)
  refine ⟨_, _, fun a ha => hprimary a (List.mem_of_mem_head? ha),
    fun a ha => hreplica a (List.mem_of_mem_head? ha), ?_, fun h => ?_⟩
  · rintro x hx rfl
    have hx : x.2 ∈ ofShard x.1 round := hmem.mpr ⟨x, hx, rfl, rfl⟩
    cases hrole : x.2.primary with
    | true =>
      exact .inl (mem_head?_of_same (hone hprimary) (List.mem_filter.mpr ⟨hx, hrole⟩))
    | false =>
      exact .inr (mem_head?_of_same (hone hreplica) (List.mem_filter.mpr ⟨hx, by simp [hrole]⟩))
  · rw [attempts_recordAll, ← foldl_note_of_same (hone hprimary),
      ← foldl_note_of_same (hone hreplica), ← List.foldl_append]
    exact congrArg (List.foldl note _) hsplit.symm

/-- After one round every attempt is the latest one for its role, or it is for a primary and was
dropped. -/
theorem first_round (hround : Orderly round) (h : History) : ∀ x ∈ round,
    latest? ((h.recordAll round).attempts x.1) x.2.primary = some x.2 ∨
      x.2.primary = true ∧ latest? ((h.recordAll round).attempts x.1) true = none := by
  intro x hx
  obtain ⟨p, r, hp, hr, hmem, hrecord⟩ := hround.exists_roles x.1
  obtain ⟨hprimary, hreplica⟩ := latest?_round hp hr (h.attempts x.1)
  rw [hrecord]
  rcases hmem x hx rfl with hx | hx
  · rw [hp x.2 hx]
    exact (hprimary x.2 hx).imp_right fun hnone => ⟨rfl, hnone⟩
  · rw [hr x.2 hx]
    exact .inl (hreplica x.2 hx)

/-- After a second round every attempt is the latest one for its role. -/
theorem second_round (hround : Orderly round) (h : History) : ∀ x ∈ round,
    latest? (((h.recordAll round).recordAll round).attempts x.1) x.2.primary = some x.2 := by
  intro x hx
  obtain ⟨p, r, hp, hr, hmem, hrecord⟩ := hround.exists_roles x.1
  obtain ⟨hprimary, hreplica⟩ := latest?_round hp hr (h.attempts x.1)
  obtain ⟨hprimary, hreplica⟩ := latest?_round_again hp hr hprimary hreplica
  rw [hrecord, hrecord]
  rcases hmem x hx rfl with hx | hx
  · rw [hp x.2 hx]
    exact hprimary x.2 hx
  · rw [hr x.2 hx]
    exact hreplica x.2 hx

/-- A third round records nothing. -/
theorem recordAll_third (hround : Orderly round) (h : History) :
    ((h.recordAll round).recordAll round).recordAll round = (h.recordAll round).recordAll round :=
  recordAll_of_latest (hround.second_round h)

/-- The second round records nothing either, exactly if the first one left an attempt for every
primary that it was about. -/
theorem recordAll_second_iff (hround : Orderly round) (h : History) :
    (h.recordAll round).recordAll round = h.recordAll round ↔ ∀ x ∈ round,
      x.2.primary = true → ∃ a ∈ (h.recordAll round).attempts x.1, a.primary = true := by
  constructor
  · intro hsame x hx hprim
    have hlatest := hround.second_round h x hx
    rw [hsame] at hlatest
    exact ⟨x.2, List.mem_reverse.mp (List.mem_of_find?_eq_some hlatest), hprim⟩
  · intro hkept
    refine recordAll_of_latest fun x hx => (hround.first_round h x hx).resolve_right ?_
    rintro ⟨hprim, hdropped⟩
    obtain ⟨a, ha, hrole⟩ := hkept x hx hprim
    exact latest?_eq_none_iff.mp hdropped a ha hrole

end Orderly

end History

end ShardAllocation
