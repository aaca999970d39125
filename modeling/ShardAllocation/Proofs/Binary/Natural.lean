/-
Natural numbers as doubles.

A double has 53 bits of significand, so that a natural number below `2 ^ 53` is a double, and a
larger one is rounded to a multiple of its last place.  Where nothing overflows, products with
powers of two lose nothing, and what is left of a natural number at the end is `rounded`.

* `rounded` — the double nearest to a natural number, with `rounded_eq_self_iff` for those that are
  doubles themselves;
* `exists_ofNat` — the conversion gives it;
* `mul_ofNat_pow`, `truncate_ofNat` — so does a product with a power of two, and the way back;
* `truncate_mul_ofNat_pow` — what is left of a word that is scaled.
-/
import Mathlib.Tactic.Ring
import ShardAllocation.Binary.Basic

namespace ShardAllocation

namespace Binary

variable {n d k c e j : Nat}

/-! ### Quotients to the nearest integer -/

theorem divNearest_mul_right (hc : 0 < c) : divNearest (n * c) (d * c) = divNearest n d := by
  have htwice : 2 * (n % d * c) = 2 * (n % d) * c := by rw [Nat.mul_assoc]
  simp only [divNearest, Nat.mul_div_mul_right n d hc, Nat.mul_mod_mul_right, htwice,
    Nat.mul_lt_mul_right hc, Nat.mul_left_inj (Nat.pos_iff_ne_zero.mp hc)]

theorem divNearest_mul_self (hd : 0 < d) : divNearest (k * d) d = k := by
  have hne : d ≠ 0 := Nat.pos_iff_ne_zero.mp hd
  simp [divNearest, Nat.mul_div_cancel k hd, hne.symm]

theorem divNearest_one (n : Nat) : divNearest n 1 = n := by
  simpa using divNearest_mul_self (k := n) Nat.one_pos

theorem divNearest_le (n d : Nat) : divNearest n d ≤ n / d + 1 := by
  simp only [divNearest]
  split
  · exact Nat.le_refl _
  · exact Nat.le_succ _

/-! ### The nearest double -/

/-- The distance of the doubles around a natural number, but at least one. -/
def lastPlace (n : Nat) : Nat := 2 ^ (Nat.log2 n - 52)

/-- The natural number that is the double nearest to another one. -/
def rounded (n : Nat) : Nat := divNearest n (lastPlace n) * lastPlace n

/-- The number has no more than the 53 significant bits of a double. -/
def Exact (n : Nat) : Prop := ∃ k e, k < 2 ^ 53 ∧ n = k * 2 ^ e

theorem lastPlace_pos (n : Nat) : 0 < lastPlace n := Nat.two_pow_pos _

theorem rounded_of_dvd (h : lastPlace n ∣ n) : rounded n = n := by
  obtain ⟨k, hk⟩ := h
  have hquotient : divNearest n (lastPlace n) = k := by
    conv_lhs => arg 1; rw [hk, Nat.mul_comm]
    exact divNearest_mul_self (lastPlace_pos n)
  rw [rounded, hquotient, Nat.mul_comm, ← hk]

/-- The numbers that are doubles are those that rounding keeps. -/
theorem rounded_eq_self_iff : rounded n = n ↔ Exact n := by
  constructor
  · intro h
    refine ⟨divNearest n (lastPlace n), Nat.log2 n - 52, ?_, h.symm⟩
    -- otherwise the number would have another bit
    have hlt : divNearest n (lastPlace n) * lastPlace n < 2 ^ (Nat.log2 n + 1) := by
      rw [← rounded, h]
      exact Nat.lt_log2_self
    have hle : 2 ^ (Nat.log2 n + 1) ≤ 2 ^ 53 * lastPlace n := by
      rw [lastPlace, ← Nat.pow_add]
      exact Nat.pow_le_pow_right Nat.two_pos (by omega)
    exact Nat.lt_of_mul_lt_mul_right (Nat.lt_of_lt_of_le hlt hle)
  · rintro ⟨k, e, hk, rfl⟩
    refine rounded_of_dvd ?_
    by_cases hzero : k * 2 ^ e = 0
    · rw [hzero]
      exact Nat.dvd_zero _
    · -- the last place is no larger than the power of two that is split off
      have hlog : Nat.log2 (k * 2 ^ e) < 53 + e := by
        rw [Nat.log2_lt hzero, Nat.pow_add]
        exact Nat.mul_lt_mul_of_pos_right hk (Nat.two_pow_pos e)
      exact Nat.dvd_mul_left_of_dvd (Nat.pow_dvd_pow 2 (by omega)) k

instance (n : Nat) : Decidable (Exact n) := decidable_of_iff _ rounded_eq_self_iff

/-- A significand is rounded up to the next power of two at most. -/
theorem divNearest_lastPlace_le (n : Nat) : divNearest n (lastPlace n) ≤ 2 ^ 53 := by
  have hlt : n < 2 ^ 53 * lastPlace n := by
    refine Nat.lt_of_lt_of_le Nat.lt_log2_self ?_
    rw [lastPlace, ← Nat.pow_add]
    exact Nat.pow_le_pow_right Nat.two_pos (by omega)
  have hquotient := (Nat.div_lt_iff_lt_mul (lastPlace_pos n)).mpr hlt
  have hnearest := divNearest_le n (lastPlace n)
  omega

/-- Rounding does not leave the range of the words that it begins in, but for the bound itself. -/
theorem rounded_le (hj : 53 ≤ j) (hn : n < 2 ^ j) : rounded n ≤ 2 ^ j := by
  have hlog : Nat.log2 n < j := by
    by_cases hn0 : n = 0
    · subst hn0
      rw [Nat.log2_zero]
      omega
    · exact (Nat.log2_lt hn0).mpr hn
  calc rounded n ≤ 2 ^ 53 * lastPlace n := Nat.mul_le_mul_right _ (divNearest_lastPlace_le n)
    _ = 2 ^ (53 + (Nat.log2 n - 52)) := by rw [lastPlace, ← Nat.pow_add]
    _ ≤ 2 ^ j := Nat.pow_le_pow_right Nat.two_pos (by omega)

theorem exact_rounded (n : Nat) : Exact (rounded n) := by
  rcases Nat.lt_or_eq_of_le (divNearest_lastPlace_le n) with hlt | heq
  · exact ⟨_, _, hlt, rfl⟩
  · exact ⟨1, 53 + (Nat.log2 n - 52), by decide, by
      rw [rounded, heq, lastPlace, ← Nat.pow_add, Nat.one_mul]⟩

theorem Exact.mul_pow (h : Exact n) (j : Nat) : Exact (n * 2 ^ j) := by
  obtain ⟨k, e, hk, rfl⟩ := h
  exact ⟨k, e + j, hk, by rw [Nat.mul_assoc, ← Nat.pow_add]⟩

theorem exact_pow (j : Nat) : Exact (2 ^ j) := ⟨1, j, by decide, (Nat.one_mul _).symm⟩

/-! ### Rounding a fraction that is a natural number -/

theorem log2_mul_pow (hn : n ≠ 0) (j : Nat) : Nat.log2 (n * 2 ^ j) = Nat.log2 n + j := by
  have hpos : n * 2 ^ j ≠ 0 := Nat.mul_ne_zero hn (Nat.pos_iff_ne_zero.mp (Nat.two_pow_pos j))
  refine Nat.le_antisymm ?_ ?_
  · refine Nat.le_of_lt_succ ((Nat.log2_lt hpos).mpr ?_)
    rw [← Nat.succ_add, Nat.pow_add]
    exact Nat.mul_lt_mul_of_pos_right Nat.lt_log2_self (Nat.two_pow_pos j)
  · rw [Nat.le_log2 hpos, Nat.pow_add]
    exact Nat.mul_le_mul_right _ (Nat.log2_self_le hn)

theorem ratioLog2_mul_pow (hn : n ≠ 0) (j : Nat) :
    ratioLog2 (n * 2 ^ j) (2 ^ j) = Nat.log2 n := by
  have hlog : (Nat.log2 (n * 2 ^ j) : Int) - Nat.log2 (2 ^ j) = Nat.log2 n := by
    rw [log2_mul_pow hn, Nat.log2_two_pow]
    omega
  simp only [ratioLog2, hlog]
  refine if_neg (Nat.not_lt.mpr ?_)
  have hneg : (-(Nat.log2 n : Int)).toNat = 0 := by omega
  rw [hneg, Int.toNat_natCast]
  show 2 ^ j * 2 ^ Nat.log2 n ≤ n * 2 ^ j * 1
  rw [Nat.mul_one, Nat.mul_comm]
  exact Nat.mul_le_mul_right _ (Nat.log2_self_le hn)

/-- A fraction is rounded like the natural number that it is. -/
theorem nearest_mul_pow (f : BinaryFormat) (negative : Bool) (n j : Nat) :
    nearest f negative (n * 2 ^ j) (2 ^ j) = nearest f negative n 1 := by
  by_cases hn : n = 0
  · subst hn
    rw [Nat.zero_mul]
    rfl
  · have hpos : n * 2 ^ j ≠ 0 := Nat.mul_ne_zero hn (Nat.pos_iff_ne_zero.mp (Nat.two_pow_pos j))
    have hlog : ratioLog2 n 1 = Nat.log2 n := by simpa using ratioLog2_mul_pow hn 0
    have hscaled : ∀ a b, divNearest (n * 2 ^ j * a) (2 ^ j * b) = divNearest (n * a) (1 * b) := by
      intro a b
      rw [Nat.mul_right_comm, Nat.mul_comm (2 ^ j) b, Nat.one_mul]
      exact divNearest_mul_right (Nat.two_pow_pos j)
    simp only [nearest, hn, hpos, if_false, ratioLog2_mul_pow hn, hlog, hscaled]

/-! ### Conversions and products -/

/-- What the significand of the nearest double stands for, before a carry is taken care of. -/
theorem significand_spec {e : Int} (he : e = (Nat.log2 n : Int) - 52) {m : Nat}
    (hm : divNearest (n * Nat.pow 2 (-e).toNat) (1 * Nat.pow 2 e.toNat) = m) :
    m * 2 ^ e.toNat = rounded n * 2 ^ (-e).toNat ∧ (e < 0 → m < 2 ^ 53) := by
  rcases Nat.lt_or_ge 52 (Nat.log2 n) with hlarge | hsmall
  · -- some bits are lost
    have hup : e.toNat = Nat.log2 n - 52 := by omega
    have hdown : (-e).toNat = 0 := by omega
    rw [hup, hdown] at hm ⊢
    have hm : divNearest (n * 1) (1 * lastPlace n) = m := hm
    rw [Nat.mul_one, Nat.one_mul] at hm
    refine ⟨?_, by omega⟩
    rw [← hm, Nat.pow_zero, Nat.mul_one]
    rfl
  · -- the number fits, and is shifted to the left
    have hup : e.toNat = 0 := by omega
    have hdown : (-e).toNat = 52 - Nat.log2 n := by omega
    have hone : lastPlace n = 1 := by rw [lastPlace, Nat.sub_eq_zero_of_le hsmall, Nat.pow_zero]
    rw [hup, hdown] at hm ⊢
    have hm : m = n * 2 ^ (52 - Nat.log2 n) := hm.symm.trans (divNearest_one _)
    rw [rounded_of_dvd (hone ▸ Nat.one_dvd n), hm]
    refine ⟨by rw [Nat.pow_zero, Nat.mul_one], fun _ => ?_⟩
    calc n * 2 ^ (52 - Nat.log2 n)
        < 2 ^ (Nat.log2 n + 1) * 2 ^ (52 - Nat.log2 n) :=
          Nat.mul_lt_mul_of_pos_right Nat.lt_log2_self (Nat.two_pow_pos _)
      _ = 2 ^ 53 := by
          rw [← Nat.pow_add]
          congr 1
          omega

/-- The conversion of a natural number gives the nearest double, in some representation. -/
theorem exists_ofNat (hn : n < 2 ^ 128) :
    ∃ s e, ofNat .double n = .finite false s e ∧
      s * 2 ^ e.toNat = rounded n * 2 ^ (-e).toNat := by
  by_cases hn0 : n = 0
  · subst hn0
    exact ⟨0, _, rfl, by rw [Nat.zero_mul, rounded_of_dvd (Nat.dvd_zero _), Nat.zero_mul]⟩
  have hlog : Nat.log2 n < 128 := (Nat.log2_lt hn0).mpr hn
  have hratio : ratioLog2 n 1 = Nat.log2 n := by simpa using ratioLog2_mul_pow hn0 0
  obtain ⟨e, he⟩ : ∃ e : Int, e = (Nat.log2 n : Int) - 52 := ⟨_, rfl⟩
  have hexp : Max.max (ratioLog2 n 1 - ((BinaryFormat.double.precision : Int) - 1))
      BinaryFormat.double.minExp = e := by
    rw [hratio]
    simp only [BinaryFormat.double]
    omega
  simp only [ofNat, nearest, hn0, if_false, hexp]
  generalize hm : divNearest (n * Nat.pow 2 (-e).toNat) (1 * Nat.pow 2 e.toNat) = m
  obtain ⟨hvalue, hfits⟩ := significand_spec he hm
  have hprecision : Nat.pow 2 BinaryFormat.double.precision = 2 ^ 53 := rfl
  have hbelow : ∀ d : Int, d ≤ e + 1 → ¬ BinaryFormat.double.maxExp < d := by
    intro d hd
    simp only [BinaryFormat.double]
    omega
  by_cases hcarry : m = 2 ^ 53
  · -- the significand grew by a bit
    have hnonneg : 0 ≤ e := by
      by_contra hneg
      have hlt := hfits (by omega)
      omega
    have hup : (e + 1).toNat = e.toNat + 1 := by omega
    have hdown : (-(e + 1)).toNat = (-e).toNat := by omega
    refine ⟨2 ^ 52, e + 1, ?_, ?_⟩
    · simp only [hprecision, hcarry, if_true, hbelow _ (Int.le_refl _), if_false]
      rfl
    · rw [hup, hdown, ← hvalue, hcarry, Nat.pow_succ']
      ring
  · refine ⟨m, e, ?_, hvalue⟩
    simp only [hprecision, hcarry, hbelow e (by omega), if_false]

theorem truncate_ofNat (hn : n < 2 ^ 128) (limit : Nat) :
    (ofNat .double n).truncate limit = min (rounded n) limit := by
  obtain ⟨s, e, hof, hvalue⟩ := exists_ofNat hn
  have hvalue : (ratio s e).1 = rounded n * (ratio s e).2 := hvalue
  have hpos : 0 < (ratio s e).2 := Nat.two_pow_pos _
  rw [hof, truncate, if_neg Bool.false_ne_true, hvalue, Nat.mul_div_cancel _ hpos]

/-- A product with a power of two is rounded only where its factor was. -/
theorem mul_ofNat_pow (hn : n < 2 ^ 128) (hj : j < 128) :
    mul .double (ofNat .double n) (ofNat .double (2 ^ j)) = ofNat .double (rounded n * 2 ^ j) := by
  obtain ⟨s, e, hof, hvalue⟩ := exists_ofNat hn
  obtain ⟨t, d, hof', hvalue'⟩ := exists_ofNat (Nat.pow_lt_pow_right Nat.one_lt_two hj)
  rw [rounded_eq_self_iff.mpr (exact_pow j)] at hvalue'
  have hproduct : (s * 2 ^ e.toNat) * (t * 2 ^ d.toNat) =
      rounded n * 2 ^ j * 2 ^ ((-e).toNat + (-d).toNat) := by
    rw [hvalue, hvalue', Nat.pow_add]
    ring
  have hscale : 2 ^ (-e).toNat * 2 ^ (-d).toNat = 2 ^ ((-e).toNat + (-d).toNat) :=
    (Nat.pow_add ..).symm
  rw [hof, hof', mul, ofNat, ← nearest_mul_pow .double false _ ((-e).toNat + (-d).toNat),
    ← hproduct, ← hscale]
  rfl

/-- A word that is scaled by a power of two ends as the nearest double, scaled. -/
theorem truncate_mul_ofNat_pow (hn : n < 2 ^ 64) (hj : j < 64) (limit : Nat) :
    (mul .double (ofNat .double n) (ofNat .double (2 ^ j))).truncate limit =
      min (rounded n * 2 ^ j) limit := by
  have hwide : n < 2 ^ 128 := Nat.lt_trans hn (by decide)
  have hproduct : rounded n * 2 ^ j < 2 ^ 128 :=
    calc rounded n * 2 ^ j
        ≤ 2 ^ 64 * 2 ^ 63 :=
          Nat.mul_le_mul (rounded_le (by decide) hn) (Nat.pow_le_pow_right Nat.two_pos (by omega))
      _ < 2 ^ 128 := by decide
  -- the product is a double, so it is not rounded again
  have hexact := rounded_eq_self_iff.mpr ((exact_rounded n).mul_pow j)
  rw [mul_ofNat_pow hwide (by omega), truncate_ofNat hproduct, hexact]

end Binary

end ShardAllocation
