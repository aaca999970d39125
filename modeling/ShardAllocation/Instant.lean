/-
Points in time and their text.

An instant counts seconds from the start of 1970 and nanoseconds from there.  A leap
second has no number of its own: it is written as second 60 of its minute and is counted
as a second thousand million nanoseconds of the second before it.

The text of an instant is the calendar form of RFC 3339 in universal time: as many
decimals of a second as needed in groups of three, four digits for the years 0 to 9999
and a sign before every other year.  The reader also takes blanks before every number
and around the marks, numbers without leading zeros, and any offset of less than a day.

* `Instant.toText`, `Instant.ofText?` — the written form.
-/
import ShardAllocation.Calendar
import ShardAllocation.Text.Blank

namespace ShardAllocation

/-- A point in time. -/
structure Instant where
  /-- Seconds from the start of 1970, without leap seconds. -/
  second : Int
  /-- Nanoseconds from there; a thousand million and more lie in a leap second. -/
  nanosecond : Nat
  deriving DecidableEq, Repr

namespace Instant

/-- Nanoseconds in a second. -/
def perSecond : Nat := 1000000000

/-- The instant that many milliseconds after the start of 1970. -/
def ofMilliseconds (ms : Int) : Instant := ⟨ms / 1000, (ms % 1000).toNat * 1000000⟩

/-- Whether an instant is not after another. -/
def notAfter (a b : Instant) : Bool :=
  a.second < b.second || (a.second == b.second && a.nanosecond ≤ b.nanosecond)

/-- The later of two instants. -/
def max (a b : Instant) : Instant := if a.notAfter b then b else a

/-- The instant one second later. -/
def tick (i : Instant) : Instant := { i with second := i.second + 1 }

/-- Seconds in a day. -/
def dayLength : Int := 86400

/-- The decimals of a second: none, or the fewest groups of three digits. -/
def fractionText (nanosecond : Nat) : String :=
  if nanosecond = 0 then ""
  else if nanosecond % 1000000 = 0 then "." ++ Text.padded 3 (nanosecond / 1000000)
  else if nanosecond % 1000 = 0 then "." ++ Text.padded 6 (nanosecond / 1000)
  else "." ++ Text.padded 9 nanosecond

/-- The calendar form in universal time. -/
def toText (i : Instant) : String :=
  let date := (CalendarDay.ofDayNumber (i.second / dayLength)).text
  let clock := (i.second % dayLength).toNat
  let hour := Text.padded 2 (clock / 3600)
  let minute := Text.padded 2 (clock / 60 % 60)
  let second := Text.padded 2 (clock % 60 + i.nanosecond / perSecond)
  s!"{date}T{hour}:{minute}:{second}{fractionText (i.nanosecond % perSecond)}Z"

/-- Drops blanks. -/
def skipBlanks (cs : List Char) : List Char := cs.dropWhile Text.isBlank

/-- Reads one to `most` digits after blanks. -/
def takeNumber? (most : Nat) (cs : List Char) : Option (Nat × List Char) :=
  let cs := skipBlanks cs
  let ds := (cs.take most).takeWhile Char.isDigit
  if ds.isEmpty then none else some (Binary.digitsValue ds, cs.drop ds.length)

/-- Drops blanks, then a mark. -/
def skip? (mark : Char) (cs : List Char) : Option (List Char) :=
  match skipBlanks cs with
  | c :: rest => if c = mark then some rest else none
  | [] => none

/-- Reads all digits after a sign. -/
def takeSigned? (cs : List Char) : Option (Nat × List Char) :=
  let ds := cs.takeWhile Char.isDigit
  if ds.isEmpty then none else some (Binary.digitsValue ds, cs.drop ds.length)

/-- Reads a year: at most four digits, or any number of digits after a sign. -/
def takeYear? (cs : List Char) : Option (Int × List Char) :=
  match skipBlanks cs with
  | '-' :: rest => (takeSigned? rest).map fun (n, r) => (-(n : Int), r)
  | '+' :: rest => (takeSigned? rest).map fun (n, r) => ((n : Int), r)
  | cs => (takeNumber? 4 cs).map fun (n, r) => ((n : Int), r)

/-- Reads the decimals of a second, if there are any, in nanoseconds; digits after the
ninth are ignored. -/
def takeFraction? (cs : List Char) : Option (Nat × List Char) :=
  match cs with
  | '.' :: rest =>
    let ds := rest.takeWhile Char.isDigit
    if ds.isEmpty then none
    else
      let kept := ds.take 9
      some (Binary.digitsValue kept * Nat.pow 10 (9 - kept.length), rest.drop ds.length)
  | _ => some (0, cs)

/-- Reads two digits of hours and two of minutes, in seconds.  Colons and blanks may
stand between them. -/
def takeClock? : List Char → Option (Int × List Char)
  | a :: b :: rest =>
    match rest.dropWhile fun c => c == ':' || Text.isBlank c with
    | c :: d :: rest =>
      if a.isDigit && b.isDigit && c.isDigit && d.isDigit && c < '6' then
        some (3600 * Binary.digitsValue [a, b] + 60 * Binary.digitsValue [c, d], rest)
      else none
    | _ => none
  | _ => none

/-- Reads the offset from universal time, in seconds: `Z`, `UTC`, or a sign with hours
and minutes, which have to be less than a day. -/
def takeOffset? (cs : List Char) : Option (Int × List Char) :=
  let signed (sign : Int) (rest : List Char) : Option (Int × List Char) := do
    let (size, rest) ← takeClock? rest
    if size < dayLength then pure (sign * size, rest) else none
  match cs with
  | 'Z' :: rest => some (0, rest)
  | 'z' :: rest => some (0, rest)
  | '+' :: rest => signed 1 rest
  | '-' :: rest => signed (-1) rest
  | '\u2212' :: rest => signed (-1) rest
  | _ => if Text.lower (cs.take 3) = ['u', 't', 'c'] then some (0, cs.drop 3) else none

/-- The days that have instants: those of the years -262143 to 262142. -/
def isWithinCalendar (day : Int) : Bool :=
  (CalendarDay.mk (-262143) 1 1).toDayNumber ≤ day &&
    day ≤ (CalendarDay.mk 262142 12 31).toDayNumber

/-- Drops the mark between date and time. -/
def skipDateMark? : List Char → Option (List Char)
  | c :: rest => if c = 'T' ∨ c = 't' ∨ c = ' ' then some rest else none
  | [] => none

/-- Reads the calendar form. -/
def ofText? (text : String) : Option Instant := do
  let (year, cs) ← takeYear? text.toList
  let (month, cs) ← takeNumber? 2 (← skip? '-' cs)
  let (day, cs) ← takeNumber? 2 (← skip? '-' cs)
  let (hour, cs) ← takeNumber? 2 (← skipDateMark? cs)
  let (minute, cs) ← takeNumber? 2 (← skip? ':' cs)
  let (second, cs) ← takeNumber? 2 (← skip? ':' cs)
  let (fraction, cs) ← takeFraction? cs
  let (offset, cs) ← takeOffset? (skipBlanks cs)
  let date : CalendarDay := ⟨year, month, day⟩
  let whole := date.toDayNumber * dayLength + hour * 3600 + minute * 60 + min second 59 - offset
  if (skipBlanks cs).isEmpty && date.isValid && isWithinCalendar date.toDayNumber &&
      hour < 24 && minute < 60 && second ≤ 60 && isWithinCalendar (whole / dayLength) then
    pure ⟨whole, fraction + (if second = 60 then perSecond else 0)⟩
  else none

end Instant

end ShardAllocation
