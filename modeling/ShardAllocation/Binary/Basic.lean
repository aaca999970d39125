/-
Binary floating-point numbers as exact values.

A finite number is `± significand · 2 ^ exponent`.  Every operation computes the
exact rational result and then rounds once, to the nearest number of the format
with ties going to the even significand (`nearest`).
-/

namespace ShardAllocation

/-- A binary format: `precision` bits of significand, and the exponents of the last
place of the smallest and of the largest finite numbers. -/
structure BinaryFormat where
  precision : Nat
  minExp : Int
  maxExp : Int

namespace BinaryFormat

/-- The format of 64 bits. -/
def double : BinaryFormat := ⟨53, -1074, 971⟩

/-- The format of 32 bits. -/
def single : BinaryFormat := ⟨24, -149, 104⟩

/-- The exponent code of infinities and NaN. -/
def specialCode (f : BinaryFormat) : Nat := (f.maxExp - f.minExp + 2).toNat

/-- The number of bits of the exponent code. -/
def exponentBits (f : BinaryFormat) : Nat := Nat.log2 (f.specialCode + 1)

end BinaryFormat

/-- A binary floating-point number: NaN, an infinity or an exact finite value. -/
inductive Binary where
  | nan
  | infinite (negative : Bool)
  | finite (negative : Bool) (significand : Nat) (exponent : Int)
  deriving DecidableEq, Repr

namespace Binary

/-- The quotient `n / d` to the nearest integer; a half goes to the even neighbour. -/
def divNearest (n d : Nat) : Nat :=
  let q := n / d
  let twice := 2 * (n % d)
  if d < twice ∨ (twice = d ∧ q % 2 = 1) then q + 1 else q

/-- The integer part of the binary logarithm of `n / d`. -/
def ratioLog2 (n d : Nat) : Int :=
  let k : Int := (Nat.log2 n : Int) - Nat.log2 d
  if n * Nat.pow 2 (-k).toNat < d * Nat.pow 2 k.toNat then k - 1 else k

/-- The number of the format nearest to `± n / d`. -/
def nearest (f : BinaryFormat) (negative : Bool) (n d : Nat) : Binary :=
  if n = 0 then .finite negative 0 f.minExp
  else
    let e := max (ratioLog2 n d - (f.precision - 1)) f.minExp
    let m := divNearest (n * Nat.pow 2 (-e).toNat) (d * Nat.pow 2 e.toNat)
    let (m, e) := if m = Nat.pow 2 f.precision then (Nat.pow 2 (f.precision - 1), e + 1) else (m, e)
    if f.maxExp < e then .infinite negative else .finite negative m e

/-- The magnitude of a finite number as a fraction. -/
def ratio (significand : Nat) (exponent : Int) : Nat × Nat :=
  (significand * Nat.pow 2 exponent.toNat, Nat.pow 2 (-exponent).toNat)

/-- The natural number `n` as an exact value, without rounding. -/
def natural (n : Nat) : Binary := .finite false n 0

/-- The number of the format nearest to `n`. -/
def ofNat (f : BinaryFormat) (n : Nat) : Binary := nearest f false n 1

/-- The number of the format nearest to the integer `i`. -/
def ofInt (f : BinaryFormat) (i : Int) : Binary := nearest f (decide (i < 0)) i.natAbs 1

/-- The same value in another format. -/
def convert (f : BinaryFormat) : Binary → Binary
  | finite neg m e => nearest f neg (ratio m e).1 (ratio m e).2
  | x => x

/-- The product, rounded once. -/
def mul (f : BinaryFormat) : Binary → Binary → Binary
  | nan, _ => nan
  | _, nan => nan
  | infinite a, infinite b => infinite (a != b)
  | infinite a, finite b m _ => if m = 0 then nan else infinite (a != b)
  | finite a m _, infinite b => if m = 0 then nan else infinite (a != b)
  | finite a m e, finite b n d =>
    nearest f (a != b) ((ratio m e).1 * (ratio n d).1) ((ratio m e).2 * (ratio n d).2)

/-- The quotient, rounded once. -/
def div (f : BinaryFormat) : Binary → Binary → Binary
  | nan, _ => nan
  | _, nan => nan
  | infinite _, infinite _ => nan
  | infinite a, finite b _ _ => infinite (a != b)
  | finite a _ _, infinite b => finite (a != b) 0 f.minExp
  | finite a m e, finite b n d =>
    if n = 0 then (if m = 0 then nan else infinite (a != b))
    else nearest f (a != b) ((ratio m e).1 * (ratio n d).2) ((ratio m e).2 * (ratio n d).1)

/-- The signed numerator of a finite number. -/
def signedNumerator (negative : Bool) (significand : Nat) (exponent : Int) : Int :=
  if negative then -((ratio significand exponent).1 : Int) else (ratio significand exponent).1

/-- The order of two numbers by value; NaN has no place in it and `-0` equals `0`. -/
def order? : Binary → Binary → Option Ordering
  | nan, _ => none
  | _, nan => none
  | infinite a, infinite b => some (compare b.toNat a.toNat)
  | infinite a, finite .. => some (if a then .lt else .gt)
  | finite .., infinite b => some (if b then .gt else .lt)
  | finite a m e, finite b n d =>
    some (compare (signedNumerator a m e * (ratio n d).2) (signedNumerator b n d * (ratio m e).2))

/-- `x < y`; false when one of them is NaN. -/
def lt (x y : Binary) : Bool := order? x y == some .lt

/-- `x ≤ y`; false when one of them is NaN. -/
def le (x y : Binary) : Bool := lt x y || order? x y == some .eq

/-- Whether the number is neither NaN nor an infinity. -/
def isFinite : Binary → Bool
  | finite .. => true
  | _ => false

/-- The larger of two numbers; a NaN gives way to the other number. -/
def max (x y : Binary) : Binary :=
  match order? x y with
  | some .lt => y
  | some _ => x
  | none => if x = nan then y else x

/-- The integer part as a natural number of at most `limit`: NaN and negative numbers
give zero. -/
def truncate (limit : Nat) : Binary → Nat
  | nan => 0
  | infinite neg => if neg then 0 else limit
  | finite neg m e => if neg then 0 else min ((ratio m e).1 / (ratio m e).2) limit

/-- The nearest natural number of at most `limit`, a half going away from zero: NaN and
negative numbers give zero. -/
def roundToNat (limit : Nat) : Binary → Nat
  | nan => 0
  | infinite neg => if neg then 0 else limit
  | finite neg m e =>
    if neg then 0 else min ((2 * (ratio m e).1 + (ratio m e).2) / (2 * (ratio m e).2)) limit

/-- The bit pattern of a number of the format: sign, exponent code, significand. -/
def toBits (f : BinaryFormat) (x : Binary) : Nat :=
  let hidden := Nat.pow 2 (f.precision - 1)
  let sign (neg : Bool) : Nat := if neg then hidden * Nat.pow 2 f.exponentBits else 0
  match x with
  | nan => f.specialCode * hidden + hidden / 2
  | infinite neg => sign neg + f.specialCode * hidden
  | finite neg m e =>
    if m < hidden then sign neg + m
    else sign neg + (e - f.minExp + 1).toNat * hidden + (m - hidden)

end Binary

end ShardAllocation
