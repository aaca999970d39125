/-
Decimal text of binary floating-point numbers.

* `shortest` — the fewest decimal digits that read back as the same number, the
  nearest such digits, a tie going up; always positional, never with an exponent;
* `fixed` — a fixed number of decimal places of the exact value, a tie going to the
  even digit;
* `ofText?` — reading: an optional sign, then digits with an optional point and an
  optional exponent, or one of the words for infinity and NaN in any case.
-/
import ShardAllocation.Binary.Basic

namespace ShardAllocation

namespace Binary

/-- The decimal digits of a natural number. -/
def digits (n : Nat) : List Char := Nat.toDigits 10 n

/-- The text of `c · 10 ^ j` without an exponent. -/
def positional (c : Nat) (j : Int) : List Char :=
  let ds := digits c
  if 0 ≤ j then ds ++ List.replicate j.toNat '0'
  else
    let places := (-j).toNat
    if places < ds.length then
      ds.take (ds.length - places) ++ '.' :: ds.drop (ds.length - places)
    else '0' :: '.' :: (List.replicate (places - ds.length) '0' ++ ds)

/-- The numbers that round to a finite positive number, in quarters of its last place:
the lower and the upper end, and whether the ends belong to them. -/
structure RoundingInterval where
  low : Nat
  high : Nat
  closed : Bool

/-- The rounding interval of `m · 2 ^ e`.  Below a power of two the neighbours are half
as far apart. -/
def roundingInterval (f : BinaryFormat) (m : Nat) (e : Int) : RoundingInterval :=
  { low := if m = Nat.pow 2 (f.precision - 1) ∧ f.minExp < e then 4 * m - 1 else 4 * m - 2
    high := 4 * m + 2
    closed := m % 2 = 0 }

/-- Searches the decimal grids from `10 ^ j` downwards for the coarsest one that has a
point in the rounding interval, and gives that point, the nearer one if there are two. -/
def searchGrids (i : RoundingInterval) (m : Nat) (e : Int) : Nat → Int → Nat × Int
  | 0, j => (0, j)
  | steps + 1, j =>
    let p := Nat.pow 10 j.toNat * Nat.pow 2 (2 - e).toNat
    let q := Nat.pow 2 (e - 2).toNat * Nat.pow 10 (-j).toNat
    let value := 4 * m * q
    let inside (c : Nat) : Bool :=
      if i.closed then i.low * q ≤ c * p && c * p ≤ i.high * q
      else i.low * q < c * p && c * p < i.high * q
    let c := value / p
    let below := inside c && c != 0
    let above := inside (c + 1)
    if below && above then
      if value - c * p < (c + 1) * p - value then (c, j) else (c + 1, j)
    else if below then (c, j)
    else if above then (c + 1, j)
    else searchGrids i m e steps (j - 1)

/-- The shortest decimal `c · 10 ^ j` that rounds to `m · 2 ^ e`. -/
def shortestDecimal (f : BinaryFormat) (m : Nat) (e : Int) : Nat × Int :=
  let top := (e + Nat.log2 m + 1) * 30103 / 100000 + 1
  searchGrids (roundingInterval f m e) m e (f.precision + 2) top

/-- A minus sign for negative numbers. -/
def signText (negative : Bool) : List Char := if negative then ['-'] else []

/-- The shortest text that reads back as the same number. -/
def shortest (f : BinaryFormat) : Binary → String
  | nan => "NaN"
  | infinite neg => if neg then "-inf" else "inf"
  | finite neg m e =>
    if m = 0 then String.ofList (signText neg ++ ['0'])
    else
      let d := shortestDecimal f m e
      String.ofList (signText neg ++ positional d.1 d.2)

/-- The exact value with a fixed number of decimal places. -/
def fixed (places : Nat) : Binary → String
  | nan => "NaN"
  | infinite neg => if neg then "-inf" else "inf"
  | finite neg m e =>
    let scaled := divNearest ((ratio m e).1 * Nat.pow 10 places) (ratio m e).2
    String.ofList (signText neg ++ positional scaled (-places))

/-- The value of a list of decimal digits. -/
def digitsValue (ds : List Char) : Nat :=
  ds.foldl (fun n d => 10 * n + (d.toNat - '0'.toNat)) 0

/-- Takes an optional sign off the front; `true` is a minus. -/
def splitSign : List Char → Bool × List Char
  | '-' :: rest => (true, rest)
  | '+' :: rest => (false, rest)
  | cs => (false, cs)

/-- The number of the format nearest to `± c · 10 ^ j`.  Exponents out of every format's
reach are settled without computing the power. -/
def ofDecimal (f : BinaryFormat) (negative : Bool) (c : Nat) (j : Int) : Binary :=
  let magnitude := j + (digits c).length
  if c = 0 ∨ magnitude < -400 then .finite negative 0 f.minExp
  else if 400 < magnitude then .infinite negative
  else nearest f negative (c * Nat.pow 10 j.toNat) (Nat.pow 10 (-j).toNat)

/-- Reads the exponent that may follow the digits; nothing else may follow them. -/
def exponentOf? : List Char → Option Int
  | [] => some 0
  | c :: rest =>
    if c = 'e' ∨ c = 'E' then
      let (neg, ds) := splitSign rest
      if ds.isEmpty || !ds.all Char.isDigit then none
      else some (if neg then -(digitsValue ds : Int) else digitsValue ds)
    else none

/-- Reads a number: the words `inf`, `infinity` and `nan` in any case, or decimal digits
with an optional point and exponent; a digit is needed before or after the point. -/
def ofChars? (f : BinaryFormat) (text : List Char) : Option Binary :=
  let (neg, cs) := splitSign text
  let word := cs.map Char.toLower
  if word = "inf".toList ∨ word = "infinity".toList then some (.infinite neg)
  else if word = "nan".toList then some .nan
  else
    let whole := cs.takeWhile Char.isDigit
    let (fraction, rest) :=
      match cs.dropWhile Char.isDigit with
      | '.' :: r => (r.takeWhile Char.isDigit, r.dropWhile Char.isDigit)
      | r => ([], r)
    if whole.isEmpty && fraction.isEmpty then none
    else (exponentOf? rest).map fun e =>
      ofDecimal f neg (digitsValue (whole ++ fraction)) (e - fraction.length)

/-- Reads a number written in decimal. -/
def ofText? (f : BinaryFormat) (text : String) : Option Binary := ofChars? f text.toList

end Binary

end ShardAllocation
