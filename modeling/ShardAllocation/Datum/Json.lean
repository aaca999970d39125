/-
Reading and writing JSON.

The reader accepts exactly one value with blanks around it.  A number without a fraction
and an exponent is an integer if it fits into 64 bits; `-0` and every other number is
read as a double: at most 64 bits of digits are kept, and are scaled by the nearest
double of a power of ten.  Of two fields of one name the later wins.  Lists and records
may stand in one another up to `maxDepth`.
-/
import ShardAllocation.Binary.Decimal
import ShardAllocation.Datum.Basic
import ShardAllocation.Text.Blank
import ShardAllocation.Text.Whole

namespace ShardAllocation

namespace Json

/-- The blanks between the tokens. -/
def isBlank (c : Char) : Bool := c == ' ' || c == '\n' || c == '\r' || c == '\t'

/-- Drops blanks. -/
def skipBlanks (cs : List Char) : List Char := cs.dropWhile isBlank

/-- The value of a hexadecimal digit. -/
def hexDigit? (c : Char) : Option Nat :=
  if c.isDigit then some (c.toNat - '0'.toNat)
  else if 'a' ≤ c ∧ c ≤ 'f' then some (c.toNat - 'a'.toNat + 10)
  else if 'A' ≤ c ∧ c ≤ 'F' then some (c.toNat - 'A'.toNat + 10)
  else none

/-- Reads hexadecimal digits as a number. -/
def hexValue? (cs : List Char) : Option Nat :=
  cs.foldlM (fun n c => (hexDigit? c).map fun d => 16 * n + d) 0

/-- The character of a letter after a backslash. -/
def simpleEscape? : Char → Option Char
  | '"' => some '"'
  | '\\' => some '\\'
  | '/' => some '/'
  | 'b' => some '\x08'
  | 'f' => some '\x0c'
  | 'n' => some '\n'
  | 'r' => some '\r'
  | 't' => some '\t'
  | _ => none

/-- Reads a four-digit escape after its letter.  A character beyond 16 bits is written as
two halves, which are of no use alone. -/
def unicodeEscape? (cs : List Char) : Option (Char × List Char) := do
  let first ← if (cs.take 4).length = 4 then hexValue? (cs.take 4) else none
  let rest := cs.drop 4
  if 0xD800 ≤ first ∧ first < 0xDC00 then
    match rest with
    | '\\' :: 'u' :: more =>
      let second ← if (more.take 4).length = 4 then hexValue? (more.take 4) else none
      if 0xDC00 ≤ second ∧ second < 0xE000 then
        pure (Char.ofNat (0x10000 + (first - 0xD800) * 0x400 + (second - 0xDC00)), more.drop 4)
      else none
    | _ => none
  else if 0xDC00 ≤ first ∧ first < 0xE000 then none
  else pure (Char.ofNat first, rest)

/-- Reads the rest of a text after its opening quote; `seen` holds the characters so far,
the last one first. -/
def readText : Nat → List Char → List Char → Option (String × List Char)
  | 0, _, _ => none
  | _, _, [] => none
  | _, seen, '"' :: rest => some (String.ofList seen.reverse, rest)
  | steps + 1, seen, '\\' :: 'u' :: rest => do
    let (c, rest) ← unicodeEscape? rest
    readText steps (c :: seen) rest
  | steps + 1, seen, '\\' :: e :: rest => do
    let c ← simpleEscape? e
    readText steps (c :: seen) rest
  | steps + 1, seen, c :: rest =>
    if c = '\\' ∨ c.toNat < 0x20 then none else readText steps (c :: seen) rest

/-- Takes over digits while they fit into 64 bits; gives the value and the number of
digits that were taken over. -/
def takeDigits (value : Nat) : List Char → Nat × Nat
  | [] => (value, 0)
  | d :: rest =>
    let next := 10 * value + (d.toNat - '0'.toNat)
    if Text.wordLimit 64 < next then (value, 0)
    else
      let (final, count) := takeDigits next rest
      (final, count + 1)

/-- Scales a double by a power of ten, in steps that the exponent of a double can hold. -/
def scaleByTen (x : Binary) (exponent : Int) : Option Binary :=
  let ten (n : Nat) : Binary := Binary.nearest .double false (Nat.pow 10 n) 1
  if exponent < 0 then
    let down := (-exponent).toNat
    if down ≤ 308 then some (Binary.div .double x (ten down))
    else
      let once := Binary.div .double x (ten 308)
      if down ≤ 616 then some (Binary.div .double once (ten (down - 308)))
      else some (Binary.ofNat .double 0)
  else if exponent ≤ 308 then
    let scaled := Binary.mul .double x (ten exponent.toNat)
    if scaled.isFinite then some scaled else none
  else if x = Binary.ofNat .double 0 then some x
  else none

/-- The negative of a number. -/
def negate : Binary → Binary
  | .nan => .nan
  | .infinite neg => .infinite (!neg)
  | .finite neg m e => .finite (!neg) m e

/-- The double of a number with a fraction or an exponent. -/
def realOf (negative : Bool) (whole fraction : List Char) (exponent : Int) : Option Binary := do
  let (value, count) := takeDigits 0 whole
  let (value, places) := takeDigits value fraction
  let dropped : Int := (whole.length : Int) - count
  let x ← scaleByTen (Binary.ofNat .double value) (exponent + dropped - places)
  pure (if negative then negate x else x)

/-- Reads the digits after an `e`. -/
def readExponent (cs : List Char) : Option (Int × List Char) :=
  let (neg, rest) := Binary.splitSign cs
  let ds := rest.takeWhile Char.isDigit
  if ds.isEmpty then none
  else
    let size := min (Binary.digitsValue ds) 999999999
    some (if neg then -(size : Int) else size, rest.drop ds.length)

/-- Reads a number. -/
def readNumber (cs : List Char) : Option (Datum × List Char) := do
  let (neg, rest) := match cs with
    | '-' :: rest => (true, rest)
    | _ => (false, cs)
  let whole := rest.takeWhile Char.isDigit
  let rest := rest.drop whole.length
  if whole.isEmpty || (whole.head? == some '0' && 1 < whole.length) then none
  else
    let (fraction, rest, hasPoint) := match rest with
      | '.' :: more => (more.takeWhile Char.isDigit, more.dropWhile Char.isDigit, true)
      | _ => ([], rest, false)
    if hasPoint && fraction.isEmpty then none
    else
      let (exponent, rest, hasExponent) ← match rest with
        | c :: more =>
          if c = 'e' ∨ c = 'E' then (readExponent more).map fun (e, r) => (e, r, true)
          else some (0, rest, false)
        | [] => some (0, rest, false)
      let value := Binary.digitsValue whole
      if !hasPoint && !hasExponent && !neg && value ≤ Text.wordLimit 64 then
        pure (.integer value, rest)
      else if !hasPoint && !hasExponent && neg && 0 < value && value ≤ Text.wordLimit 63 + 1 then
        pure (.integer (-(value : Int)), rest)
      else
        let x ← realOf neg whole fraction exponent
        pure (.real x, rest)

/-- How many lists and records may stand in one another. -/
def maxDepth : Nat := 127

mutual

/-- Reads one value in a bounded number of steps; `room` more lists and records may
stand in one another. -/
def readValue : Nat → Nat → List Char → Option (Datum × List Char)
  | 0, _, _ => none
  | steps + 1, room, cs =>
    match skipBlanks cs with
    | [] => none
    | 'n' :: 'u' :: 'l' :: 'l' :: rest => some (.null, rest)
    | 't' :: 'r' :: 'u' :: 'e' :: rest => some (.bool true, rest)
    | 'f' :: 'a' :: 'l' :: 's' :: 'e' :: rest => some (.bool false, rest)
    | '"' :: rest => (readText (rest.length + 1) [] rest).map fun (s, r) => (.text s, r)
    | '[' :: rest =>
      match room, skipBlanks rest with
      | 0, _ => none
      | _ + 1, ']' :: more => some (.list [], more)
      | room + 1, more => readItems steps room [] more
    | '{' :: rest =>
      match room, skipBlanks rest with
      | 0, _ => none
      | _ + 1, '}' :: more => some (.record [], more)
      | room + 1, more => readFields steps room [] more
    | cs => readNumber cs

/-- Reads the items of a list up to its closing bracket. -/
def readItems : Nat → Nat → List Datum → List Char → Option (Datum × List Char)
  | 0, _, _, _ => none
  | steps + 1, room, seen, cs => do
    let (item, rest) ← readValue steps room cs
    match skipBlanks rest with
    | ',' :: more => readItems steps room (item :: seen) more
    | ']' :: more => pure (.list (item :: seen).reverse, more)
    | _ => none

/-- Reads the fields of a record up to its closing brace. -/
def readFields : Nat → Nat → List (String × Datum) → List Char → Option (Datum × List Char)
  | 0, _, _, _ => none
  | steps + 1, room, seen, cs => do
    match skipBlanks cs with
    | '"' :: rest =>
      let (name, rest) ← readText (rest.length + 1) [] rest
      match skipBlanks rest with
      | ':' :: rest =>
        let (value, rest) ← readValue steps room rest
        let fields := Datum.putField name value seen
        match skipBlanks rest with
        | ',' :: more => readFields steps room fields more
        | '}' :: more => pure (.record fields, more)
        | _ => none
      | _ => none
    | _ => none

end

/-- Reads a text that holds one value.  Every step takes at least one character. -/
def read (text : String) : Option Datum :=
  let cs := text.toList
  match readValue (cs.length + 2) maxDepth cs with
  | some (value, rest) => if (skipBlanks rest).isEmpty then some value else none
  | none => none

/-- A hexadecimal digit. -/
def hexChar (n : Nat) : Char := Nat.digitChar n

/-- The written form of one character of a text. -/
def escape (c : Char) : List Char :=
  if c = '"' then ['\\', '"']
  else if c = '\\' then ['\\', '\\']
  else if c = '\n' then ['\\', 'n']
  else if c = '\r' then ['\\', 'r']
  else if c = '\t' then ['\\', 't']
  else if c = '\x08' then ['\\', 'b']
  else if c = '\x0c' then ['\\', 'f']
  else if c.toNat < 0x20 then
    ['\\', 'u', '0', '0', hexChar (c.toNat / 16), hexChar (c.toNat % 16)]
  else [c]

/-- A text in quotes. -/
def quote (s : String) : String := String.ofList ('"' :: s.toList.flatMap escape ++ ['"'])

/-- The written form of a value without parts. -/
def writeScalar : Datum → String
  | .null => "null"
  | .bool b => if b then "true" else "false"
  | .integer i => if i < 0 then s!"-{i.natAbs}" else s!"{i.natAbs}"
  | .real x => if x.isFinite then x.shortest .double else "null"
  | .text s => quote s
  | .list _ => "[]"
  | .record _ => "\x7b\x7d"

mutual

/-- The written form of a value on one line. -/
def write : Datum → String
  | .list items => "[" ++ Text.join "," (writeItems items) ++ "]"
  | .record fields => "\x7b" ++ Text.join "," (writeFields fields) ++ "\x7d"
  | d => writeScalar d

/-- The written forms of the items of a list. -/
def writeItems : List Datum → List String
  | [] => []
  | item :: rest => write item :: writeItems rest

/-- The written forms of the fields of a record. -/
def writeFields : List (String × Datum) → List String
  | [] => []
  | (name, value) :: rest => (quote name ++ ":" ++ write value) :: writeFields rest

end

/-- Lines of text, each with more indentation. -/
def indent (lines : List String) : List String := lines.map fun l => "  " ++ l

/-- Appends a text to the last line. -/
def appendToLast (suffix : String) : List String → List String
  | [] => [suffix]
  | [l] => [l ++ suffix]
  | l :: rest => l :: appendToLast suffix rest

/-- Puts a text before the first line. -/
def prependToFirst (start : String) : List String → List String
  | [] => [start]
  | l :: rest => (start ++ l) :: rest

/-- Groups of lines with a comma after all but the last. -/
def separate : List (List String) → List String
  | [] => []
  | [lines] => lines
  | lines :: rest => appendToLast "," lines ++ separate rest

mutual

/-- The written form of a value over several lines, indented by two blanks. -/
def writeLines : Datum → List String
  | .list items =>
    if items.isEmpty then ["[]"]
    else "[" :: indent (separate (itemLines items)) ++ ["]"]
  | .record fields =>
    if fields.isEmpty then ["\x7b\x7d"]
    else "\x7b" :: indent (separate (fieldLines fields)) ++ ["\x7d"]
  | d => [writeScalar d]

/-- The lines of each item of a list. -/
def itemLines : List Datum → List (List String)
  | [] => []
  | item :: rest => writeLines item :: itemLines rest

/-- The lines of each field of a record. -/
def fieldLines : List (String × Datum) → List (List String)
  | [] => []
  | (name, value) :: rest =>
    prependToFirst (quote name ++ ": ") (writeLines value) :: fieldLines rest

end

end Json

end ShardAllocation
