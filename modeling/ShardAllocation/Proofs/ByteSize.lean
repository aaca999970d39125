/-
Sizes in bytes and what becomes of them when they are read.

A size is written with all its digits and read through a double.  The digits are rounded to the
nearest double, and the unit, a power of two, scales it without a further loss; so a size is read
back exactly if its digits are those of a double, which every size below `2 ^ 53` has.

* `Binary.ofChars?_digits` — digits are read as the nearest double;
* `exists_pow_of_unitBytes?` — the units are powers of two, written in letters;
* `ofText_digits` — what digits with a unit are read as;
* `sizes_read_back_iff` — which sizes survive, as watermarks and in general.
-/
import Mathlib.Data.List.TakeWhile
import Mathlib.Data.Nat.Digits.Defs
import ShardAllocation.Disk
import ShardAllocation.Proofs.Binary.Natural

namespace ShardAllocation

/-! ### Characters -/

namespace Text

variable {c : Char} {cs : List Char}

theorem toNat_of_isDigit (h : c.isDigit = true) : 48 ≤ c.toNat ∧ c.toNat ≤ 57 := by
  simpa [Char.isDigit, UInt32.le_iff_toNat_le] using h

theorem toLower_of_toNat (h : c.toNat < 65 ∨ 90 < c.toNat) : c.toLower = c := by
  refine dif_neg ?_
  rintro ⟨hlow, hhigh⟩
  have hlow : 65 ≤ c.toNat := hlow
  have hhigh : c.toNat ≤ 90 := hhigh
  omega

theorem toLower_of_isDigit (h : c.isDigit = true) : c.toLower = c :=
  toLower_of_toNat (.inl (by have := toNat_of_isDigit h; omega))

theorem isBlank_of_isDigit (h : c.isDigit = true) : isBlank c = false := by
  have hrange := toNat_of_isDigit h
  simp [isBlank]
  omega

/-- No blank has another case. -/
theorem toLower_of_isBlank (h : isBlank c = true) : c.toLower = c := by
  refine toLower_of_toNat ?_
  simp [isBlank] at h
  omega

theorem trim_eq_self (h : ∀ c ∈ cs, isBlank c = false) : trim cs = cs := by
  have hdrop : ∀ {l : List Char}, (∀ c ∈ l, isBlank c = false) → l.dropWhile isBlank = l := by
    intro l hl
    cases l with
    | nil => rfl
    | cons c rest => exact List.dropWhile_cons_of_neg (by simp [hl c List.mem_cons_self])
  rw [trim, hdrop h, hdrop fun c hc => h c (List.mem_reverse.mp hc), List.reverse_reverse]

end Text

/-! ### Digits -/

namespace Binary

theorem splitSign_of_isDigit {c : Char} {rest : List Char} (h : c.isDigit = true) :
    splitSign (c :: rest) = (false, c :: rest) := by
  unfold splitSign
  split
  next heq =>
    cases heq
    cases h
  next heq =>
    cases heq
    cases h
  next => rfl

/-- Digits are read as the number that they stand for. -/
theorem ofChars?_digits (f : BinaryFormat) {ds : List Char} (hne : ds ≠ [])
    (hds : ∀ c ∈ ds, c.isDigit = true) :
    ofChars? f ds = some (ofDecimal f false (digitsValue ds) 0) := by
  obtain ⟨c, rest, rfl⟩ := List.exists_cons_of_ne_nil hne
  have hc := hds c List.mem_cons_self
  -- no word begins with a digit
  have hword : ∀ w : List Char, w.head?.any (!·.isDigit) = true →
      (c :: rest).map Char.toLower ≠ w := by
    rintro w hw rfl
    rw [List.map_cons, Text.toLower_of_isDigit hc] at hw
    simp [hc] at hw
  have hwords : ¬ ((c :: rest).map Char.toLower = "inf".toList ∨
      (c :: rest).map Char.toLower = "infinity".toList) :=
    not_or.mpr ⟨hword _ rfl, hword _ rfl⟩
  have htake : (c :: rest).takeWhile Char.isDigit = c :: rest := List.takeWhile_eq_self_iff.mpr hds
  have hdrop : (c :: rest).dropWhile Char.isDigit = [] := List.dropWhile_eq_nil_iff.mpr hds
  simp only [ofChars?, splitSign_of_isDigit hc, hwords, hword "nan".toList rfl, htake, hdrop,
    if_false, List.isEmpty_cons, Bool.false_and, Bool.false_eq_true, exponentOf?, Option.map_some,
    List.append_nil, List.length_nil]
  rfl

/-- A natural number of some length is read as the nearest double. -/
theorem ofDecimal_natural {n : Nat} (hn : n < 10 ^ 20) :
    ofDecimal .double false n 0 = ofNat .double n := by
  have hlength : (digits n).length ≤ 20 := Nat.toDigits_length 10 n 20 (by decide) hn
  have hlow : ¬ (0 + ((digits n).length : Int) < -400) := by omega
  have hhigh : ¬ (400 < 0 + ((digits n).length : Int)) := by omega
  by_cases hzero : n = 0
  · subst hzero
    rfl
  · simp only [ofDecimal, hzero, hlow, hhigh, or_self, if_false]
    show nearest .double false (n * 1) 1 = _
    rw [Nat.mul_one, ofNat]

theorem isDigit_of_mem_digits {n : Nat} {c : Char} (h : c ∈ digits n) : c.isDigit = true :=
  Nat.isDigit_of_mem_toDigits (by decide) (by decide) h

theorem ofChars?_natural {n : Nat} (hn : n < 10 ^ 20) :
    ofChars? .double (digits n) = some (ofNat .double n) := by
  have hne : digits n ≠ [] := Nat.toDigits_ne_nil
  have hvalue : digitsValue (digits n) = n := Nat.ofDigitChars_toDigits (by decide) (by decide)
  rw [ofChars?_digits _ hne fun c => isDigit_of_mem_digits, hvalue, ofDecimal_natural hn]

end Binary

/-! ### Sizes -/

namespace ByteSize

variable {n m : Nat}

/-- A unit is a power of two, and is written in a few letters. -/
theorem exists_pow_of_unitBytes? {us : List Char} (h : unitBytes? us = some m) :
    (∃ j < 51, m = 2 ^ j) ∧ ∀ c ∈ us, c ∈ ['b', 'k', 'm', 'g', 't', 'p'] := by
  unfold unitBytes? at h
  split at h
  all_goals try cases h
  all_goals
    rename_i hus
    obtain rfl := (String.toList_ofList (l := us)).symm.trans (congrArg String.toList hus)
    refine ⟨?_, by simp⟩
  exacts [⟨0, by decide, rfl⟩, ⟨0, by decide, rfl⟩, ⟨10, by decide, rfl⟩, ⟨10, by decide, rfl⟩,
    ⟨20, by decide, rfl⟩, ⟨20, by decide, rfl⟩, ⟨30, by decide, rfl⟩, ⟨30, by decide, rfl⟩,
    ⟨40, by decide, rfl⟩, ⟨40, by decide, rfl⟩, ⟨50, by decide, rfl⟩, ⟨50, by decide, rfl⟩]

/-- The letters of a unit are neither blanks nor part of a number. -/
theorem unit_letters {us : List Char} (h : unitBytes? (Text.lower us) = some m) :
    (∀ c ∈ us, Text.isBlank c = false) ∧
      ∀ c ∈ Text.lower us, Text.isBlank c = false ∧ c.isDigit = false ∧ c ≠ '.' := by
  have hletter : ∀ c ∈ ['b', 'k', 'm', 'g', 't', 'p'],
      Text.isBlank c = false ∧ c.isDigit = false ∧ c ≠ '.' := by
    simp [Text.isBlank, Char.isDigit]
  have hletters := (exists_pow_of_unitBytes? h).2
  refine ⟨fun c hc => ?_, fun c hc => hletter c (hletters c hc)⟩
  by_contra hyes
  have hyes : Text.isBlank c = true := Bool.not_eq_false _ ▸ hyes
  -- a blank would be a blank in the other case, too
  have hmem := hletters c.toLower (List.mem_map_of_mem hc)
  rw [Text.toLower_of_isBlank hyes] at hmem
  rw [(hletter c hmem).1] at hyes
  cases hyes

/-- Where the digits of a size end, its unit begins. -/
theorem split_digits {ds us : List Char} (hds : ∀ c ∈ ds, c.isDigit = true)
    (hus : ∀ c ∈ us, c.isDigit = false ∧ c ≠ '.') :
    (ds ++ us).takeWhile (fun c => c.isDigit || c == '.') = ds ∧
      (ds ++ us).dropWhile (fun c => c.isDigit || c == '.') = us := by
  have hnumeric : ∀ c ∈ ds, (c.isDigit || c == '.') = true := fun c hc => by rw [hds c hc]; rfl
  have hstops : us.takeWhile (fun c => c.isDigit || c == '.') = [] ∧
      us.dropWhile (fun c => c.isDigit || c == '.') = us := by
    cases us with
    | nil => exact ⟨rfl, rfl⟩
    | cons c rest =>
      obtain ⟨hdigit, hpoint⟩ := hus c List.mem_cons_self
      simp [hdigit, hpoint]
  rw [List.takeWhile_append_of_pos hnumeric, List.dropWhile_append_of_pos hnumeric, hstops.1,
    hstops.2, List.append_nil]
  exact ⟨rfl, rfl⟩

theorem toList_append_unit (n : Nat) (u : String) :
    (toString n ++ u).toList = Binary.digits n ++ u.toList := by
  rw [String.toList_append, Nat.toString_eq_ofList_toDigits, String.toList_ofList, Binary.digits]

/-- There is nothing to trim around digits with a unit. -/
theorem trim_append_unit {u : String} (hu : unitBytes? (Text.lower u.toList) = some m) :
    Text.trim (Binary.digits n ++ u.toList) = Binary.digits n ++ u.toList :=
  Text.trim_eq_self fun c hc => (List.mem_append.mp hc).elim
    (fun hc => Text.isBlank_of_isDigit (Binary.isDigit_of_mem_digits hc)) ((unit_letters hu).1 c)

/-- The digits of a number with a unit, read as a size: the double nearest to the number, scaled by
the unit, and the largest size at most. -/
theorem ofText_digits (hn : n < 2 ^ 64) {u : String}
    (hu : unitBytes? (Text.lower u.toList) = some m) :
    ofText (toString n ++ u) = .ok (min (Binary.rounded n * m) limit) := by
  have hletters := (unit_letters hu).2
  have hlower : Text.lower (Binary.digits n ++ u.toList) =
      Binary.digits n ++ Text.lower u.toList := by
    have hsame : (Binary.digits n).map Char.toLower = Binary.digits n :=
      (List.map_congr_left fun c hc =>
        Text.toLower_of_isDigit (Binary.isDigit_of_mem_digits hc)).trans (List.map_id' _)
    rw [Text.lower, List.map_append, hsame, Text.lower]
  have hnumerals : ∀ c ∈ Binary.digits n, c.isDigit = true := fun c =>
    Binary.isDigit_of_mem_digits
  obtain ⟨htake, hdrop⟩ := split_digits hnumerals fun c hc => (hletters c hc).2
  have hunit : Text.trim (Text.lower u.toList) = Text.lower u.toList :=
    Text.trim_eq_self fun c hc => (hletters c hc).1
  have hsome : (Binary.digits n ++ Text.lower u.toList).isEmpty = false := by
    simp [Binary.digits, Nat.toDigits_ne_nil]
  have hnumber := Binary.ofChars?_natural (Nat.lt_trans hn (by decide : 2 ^ 64 < 10 ^ 20))
  obtain ⟨⟨j, hj, rfl⟩, -⟩ := exists_pow_of_unitBytes? hu
  simp only [ofText, toList_append_unit, trim_append_unit hu, hlower, hsome, htake, hdrop, hunit,
    hnumber, hu, Bool.false_eq_true, if_false]
  rw [Binary.truncate_mul_ofNat_pow hn (by omega)]

/-- A size that is no larger than it may be is read back if its number is a double, or if it is the
largest one, which every larger double gives. -/
theorem min_rounded_eq_iff {j : Nat} (hfits : n * 2 ^ j ≤ limit) :
    min (Binary.rounded n * 2 ^ j) limit = n * 2 ^ j ↔
      Binary.Exact n ∨ n * 2 ^ j = limit := by
  constructor
  · intro hmin
    rcases Nat.le_total (Binary.rounded n * 2 ^ j) limit with hle | hge
    · rw [Nat.min_eq_left hle] at hmin
      have hself := Nat.eq_of_mul_eq_mul_right (Nat.two_pow_pos j) hmin
      exact .inl (Binary.rounded_eq_self_iff.mp hself)
    · rw [Nat.min_eq_right hge] at hmin
      exact .inr hmin.symm
  · rintro (hexact | hlimit)
    · rw [Binary.rounded_eq_self_iff.mpr hexact, Nat.min_eq_left hfits]
    · -- the largest size is odd, so it has no unit
      have hodd : limit = 18446744073709551615 := rfl
      cases j with
      | zero =>
        rw [Nat.pow_zero, Nat.mul_one] at hlimit ⊢
        rw [hlimit]
        decide +kernel
      | succ j =>
        rw [Nat.pow_succ, ← Nat.mul_assoc] at hlimit
        omega

/-- A stored watermark is read as a size. -/
theorem ofText_toText (b : Nat) : Watermark.ofText (Watermark.toText (.freeBytes b)) =
    (ofText (toString b ++ "b")).map .freeBytes := by
  have htext : Watermark.toText (.freeBytes b) = toString b ++ "b" := rfl
  have hlast : (Binary.digits b ++ "b".toList).getLast? = some 'b' := List.getLast?_concat
  have htrim := trim_append_unit (n := b) (u := "b") rfl
  simp only [Watermark.ofText, htext, toList_append_unit, htrim, hlast]
  rw [← toList_append_unit, String.ofList_toList]
  rfl

/-- A stored size is read back exactly if its number is a double, or if it is the largest size; in
general digits with a unit are read as the nearest double times the unit. -/
theorem sizes_read_back_iff (b n m : Nat) (u : String) :
    (b < 2 ^ 64 →
      (Watermark.ofText (Watermark.toText (.freeBytes b)) = .ok (.freeBytes b) ↔
        Binary.Exact b ∨ b = limit)) ∧
    (unitBytes? (Text.lower u.toList) = some m → n * m < 2 ^ 64 →
      ofText (toString n ++ u) = .ok (min (Binary.rounded n * m) limit) ∧
      (ofText (toString n ++ u) = .ok (n * m) ↔ Binary.Exact n ∨ n * m = limit)) := by
  have hread : ∀ {n m : Nat} {u : String}, unitBytes? (Text.lower u.toList) = some m →
      n * m < 2 ^ 64 → ofText (toString n ++ u) = .ok (min (Binary.rounded n * m) limit) ∧
      (ofText (toString n ++ u) = .ok (n * m) ↔ Binary.Exact n ∨ n * m = limit) := by
    intro n m u hu hfits
    obtain ⟨⟨j, -, rfl⟩, -⟩ := exists_pow_of_unitBytes? hu
    have hn : n < 2 ^ 64 :=
      Nat.lt_of_le_of_lt (Nat.le_mul_of_pos_right n (Nat.two_pow_pos j)) hfits
    have hvalue := ofText_digits hn hu
    refine ⟨hvalue, ?_⟩
    rw [hvalue, Except.ok.injEq]
    exact min_rounded_eq_iff (Nat.le_of_lt_succ hfits)
  refine ⟨fun hb => ?_, hread⟩
  -- a watermark is its digits and the unit of one byte
  have hbytes := (@hread b 1 "b" rfl (by rwa [Nat.mul_one])).2
  rw [Nat.mul_one] at hbytes
  rw [ofText_toText, ← hbytes]
  cases ofText (toString b ++ "b") with
  | ok n => simp [Except.map]
  | error e => simp [Except.map]

/-- The last size below `2 ^ 53`, one above it that is a double, and one with a unit. -/
theorem sizes_read_back_iff_large :
    Watermark.ofText (Watermark.toText (.freeBytes 9007199254740991)) =
      .ok (.freeBytes 9007199254740991) ∧
    Watermark.ofText (Watermark.toText (.freeBytes 9007199254740994)) =
      .ok (.freeBytes 9007199254740994) ∧
    ofText (toString 16383 ++ "PB") = .ok (16383 * 2 ^ 50) := by
  have hunit : unitBytes? (Text.lower "PB".toList) = some (2 ^ 50) := by decide +kernel
  obtain ⟨hmark, hsize⟩ := sizes_read_back_iff 9007199254740991 16383 (2 ^ 50) "PB"
  refine ⟨(hmark (by decide)).mpr (by decide +kernel), ?_,
    (hsize hunit (by decide)).2.mpr (by decide +kernel)⟩
  exact ((sizes_read_back_iff 9007199254740994 0 1 "").1 (by decide)).mpr (by decide +kernel)

/-- The first natural number that is no double comes back as its neighbour, also with a unit. -/
theorem not_reads_back :
    9007199254740993 * 2 ^ 10 < 2 ^ 64 ∧
    Watermark.ofText (Watermark.toText (.freeBytes 9007199254740993)) =
      .ok (.freeBytes 9007199254740992) ∧
    Watermark.ofText (Watermark.toText (.freeBytes 9007199254740993)) ≠
      .ok (.freeBytes 9007199254740993) ∧
    ofText (toString 9007199254740993 ++ "kb") ≠ .ok (9007199254740993 * 2 ^ 10) := by
  decide +kernel

end ByteSize

end ShardAllocation
