/-
Sizes in bytes as people write them: `512`, `500mb`, `1.5tb`.

A size is read through a double: the number before the unit is rounded to a double, is
scaled by the unit, and loses its fraction.  It is written in the largest unit that
leaves a number below 1024, with two decimal places.
-/
import ShardAllocation.Binary.Decimal
import ShardAllocation.Fault
import ShardAllocation.Text.Blank
import ShardAllocation.Text.Whole

namespace ShardAllocation

namespace ByteSize

/-- The largest size. -/
def limit : Nat := Text.wordLimit 64

/-- The number of bytes in a unit; a size without a unit counts bytes. -/
def unitBytes? (unit : List Char) : Option Nat :=
  match String.ofList unit with
  | "" | "b" => some 1
  | "kb" | "k" => some (Nat.pow 2 10)
  | "mb" | "m" => some (Nat.pow 2 20)
  | "gb" | "g" => some (Nat.pow 2 30)
  | "tb" | "t" => some (Nat.pow 2 40)
  | "pb" | "p" => some (Nat.pow 2 50)
  | _ => none

/-- Reads a size. -/
def ofText (text : String) : Except Fault Nat :=
  let cs := Text.lower (Text.trim text.toList)
  if cs.isEmpty then .error (.invalidConfig "empty byte size")
  else
    let isNumeric (c : Char) : Bool := c.isDigit || c == '.'
    let unit := Text.trim (cs.dropWhile isNumeric)
    match Binary.ofChars? .double (cs.takeWhile isNumeric), unitBytes? unit with
    | none, _ => .error (.invalidConfig s!"invalid byte size: {text}")
    | some _, none => .error (.invalidConfig s!"unknown byte unit: {String.ofList unit}")
    | some number, some bytes =>
      .ok ((Binary.mul .double number (Binary.ofNat .double bytes)).truncate limit)

/-- Divides by 1024 while the size is at least 1024 and a larger unit is left. -/
def scale (size : Binary) : List String → Binary × String
  | [] => (size, "")
  | [unit] => (size, unit)
  | unit :: larger =>
    if Binary.le (Binary.natural 1024) size then
      scale (Binary.div .double size (Binary.natural 1024)) larger
    else (size, unit)

/-- Writes a size in the unit that suits it. -/
def toText (bytes : Nat) : String :=
  let (size, unit) := scale (Binary.ofNat .double bytes) ["B", "KB", "MB", "GB", "TB", "PB"]
  s!"{size.fixed 2} {unit}"

end ByteSize

end ShardAllocation
