/-
Dates and times of a TOML text.

A moment is a day, a time of the day, or both, and then perhaps with an offset from
universal time.  Seconds may be missing, and decimals of a second are kept up to the
ninth.

* `Moment.read?` — reads a moment that fills the whole text;
* `Moment.text` — the written form, with `T` between day and time.
-/
import ShardAllocation.Calendar

namespace ShardAllocation

namespace Toml

/-- A time of the day. -/
structure ClockTime where
  hour : Nat
  minute : Nat
  second : Option Nat := none
  nanosecond : Option Nat := none
  deriving DecidableEq, Repr

/-- An offset from universal time. -/
inductive ZoneOffset where
  | universal
  | minutes (count : Int)
  deriving DecidableEq, Repr

/-- A date, a time, or both. -/
inductive Moment where
  | day (d : CalendarDay)
  | time (t : ClockTime)
  | dayTime (d : CalendarDay) (t : ClockTime) (offset : Option ZoneOffset)
  deriving DecidableEq, Repr

namespace Moment

/-- Reads so many digits. -/
def takeDigits? (count : Nat) (cs : List Char) : Option (Nat × List Char) :=
  let ds := cs.take count
  if ds.length = count ∧ ds.all Char.isDigit then some (Binary.digitsValue ds, cs.drop count)
  else none

/-- Drops one of several marks. -/
def skip? (marks : List Char) : List Char → Option (List Char)
  | c :: rest => if c ∈ marks then some rest else none
  | [] => none

/-- Reads a day. -/
def takeDay? (cs : List Char) : Option (CalendarDay × List Char) := do
  let (year, cs) ← takeDigits? 4 cs
  let (month, cs) ← takeDigits? 2 (← skip? ['-'] cs)
  let (dayOfMonth, cs) ← takeDigits? 2 (← skip? ['-'] cs)
  let d : CalendarDay := ⟨year, month, dayOfMonth⟩
  if d.isValid then pure (d, cs) else none

/-- Reads the decimals after the point, in nanoseconds. -/
def takeFraction? (cs : List Char) : Option (Nat × List Char) :=
  let ds := cs.takeWhile Char.isDigit
  let kept := ds.take 9
  if ds.isEmpty then none
  else some (Binary.digitsValue kept * Nat.pow 10 (9 - kept.length), cs.drop ds.length)

/-- Reads a time of the day. -/
def takeTime? (cs : List Char) : Option (ClockTime × List Char) := do
  let (hour, cs) ← takeDigits? 2 cs
  let (minute, cs) ← takeDigits? 2 (← skip? [':'] cs)
  if 24 ≤ hour ∨ 60 ≤ minute then none
  else
    match cs with
    | ':' :: cs =>
      let (second, cs) ← takeDigits? 2 cs
      if 60 < second then none
      else
        match cs with
        | '.' :: cs =>
          let (nanosecond, cs) ← takeFraction? cs
          pure ({ hour, minute, second, nanosecond }, cs)
        | _ => pure ({ hour, minute, second }, cs)
    | _ => pure ({ hour, minute }, cs)

/-- Reads an offset that ends the text. -/
def readOffset? : List Char → Option (Option ZoneOffset)
  | [] => some none
  | ['Z'] => some (some .universal)
  | ['z'] => some (some .universal)
  | sign :: cs => do
    let (hours, cs) ← takeDigits? 2 cs
    let (minutes, cs) ← takeDigits? 2 (← skip? [':'] cs)
    let count : Int := 60 * hours + minutes
    if 24 ≤ hours ∨ 60 ≤ minutes ∨ !cs.isEmpty then none
    else if sign = '+' then pure (some (.minutes count))
    else if sign = '-' then pure (some (.minutes (-count)))
    else none

/-- Reads a moment. -/
def read? (cs : List Char) : Option Moment :=
  match takeDay? cs with
  | some (d, []) => some (.day d)
  | some (d, rest) => do
    let (t, rest) ← takeTime? (← skip? ['T', 't', ' '] rest)
    pure (.dayTime d t (← readOffset? rest))
  | none =>
    match takeTime? cs with
    | some (t, []) => some (.time t)
    | _ => none

/-- The decimals of a second, without zeros at the end but with one digit at least. -/
def fractionText (nanosecond : Nat) : String :=
  match ((Text.padded 9 nanosecond).toList.reverse.dropWhile (· == '0')).reverse with
  | [] => "0"
  | ds => String.ofList ds

/-- The written form of a time. -/
def timeText (t : ClockTime) : String :=
  let second := (t.second.map fun s => ":" ++ Text.padded 2 s).getD ""
  let fraction := (t.nanosecond.map fun n => "." ++ fractionText n).getD ""
  s!"{Text.padded 2 t.hour}:{Text.padded 2 t.minute}{second}{fraction}"

/-- The written form of an offset. -/
def offsetText : ZoneOffset → String
  | .universal => "Z"
  | .minutes count =>
    let sign := if count < 0 then "-" else "+"
    s!"{sign}{Text.padded 2 (count.natAbs / 60)}:{Text.padded 2 (count.natAbs % 60)}"

/-- The written form. -/
def text : Moment → String
  | day d => d.text
  | time t => timeText t
  | dayTime d t offset =>
    let suffix := (offset.map offsetText).getD ""
    s!"{d.text}T{timeText t}{suffix}"

end Moment

end Toml

end ShardAllocation
