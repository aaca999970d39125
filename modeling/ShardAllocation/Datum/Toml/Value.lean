/-
The values of a TOML text.

Numbers are decimal or, without a sign, of base 16, 8 or 2; whole numbers have 64 bits
and no number is too large for a double.  Dates and times become texts.  Lists and small
tables may stand in one another up to `maxDepth`, and both may go over several lines.

* `readValue` — reads one value.
-/
import ShardAllocation.Datum.Toml.Lexeme
import ShardAllocation.Datum.Toml.Moment
import ShardAllocation.Datum.Toml.Tree

namespace ShardAllocation

namespace Toml

/-- Removes the underscores of a number; each has to stand between two digits. -/
def withoutUnderscores? (isDigit : Char → Bool) : List Char → Option (List Char)
  | [] => some []
  | a :: '_' :: b :: rest =>
    if isDigit a && isDigit b then
      (withoutUnderscores? isDigit (b :: rest)).map (a :: ·)
    else none
  | a :: rest => if a = '_' then none else (withoutUnderscores? isDigit rest).map (a :: ·)
termination_by cs => cs.length

/-- Reads the digits of a whole number in a base that is a power of two. -/
def readBased (base : Nat) (cs : List Char) : Option Datum := do
  let ds ← withoutUnderscores? (fun c => (Json.hexDigit? c).isSome) cs
  if ds.isEmpty then none
  else
    let n ← ds.foldlM (fun n c => do
      let d ← Json.hexDigit? c
      if d < base then pure (base * n + d) else none) 0
    if n ≤ Text.wordLimit 63 then pure (.integer n) else none

/-- Whether digits start with a zero that does not stand alone. -/
def hasLeadingZero (ds : List Char) : Bool := ds.head? == some '0' && 1 < ds.length

/-- Reads a number with a fraction or an exponent. -/
def readReal (cs : List Char) : Option Datum := do
  let x ← Binary.ofChars? .double cs
  if x.isFinite then pure (.real x) else none

/-- Reads a decimal number. -/
def readDecimal (cs : List Char) : Option Datum := do
  let digits ← withoutUnderscores? Char.isDigit cs
  let (neg, body) := Binary.splitSign digits
  let whole := body.takeWhile Char.isDigit
  let rest := body.drop whole.length
  if body = "inf".toList then pure (.real (.infinite neg))
  else if body = "nan".toList then pure (.real .nan)
  else if whole.isEmpty || hasLeadingZero whole then none
  else if rest.isEmpty then
    match Text.readInteger digits with
    | .ok i => pure (.integer i)
    | .error _ => none
  else
    let pointIsDangling := match rest with
      | '.' :: c :: _ => !c.isDigit
      | ['.'] => true
      | _ => false
    if pointIsDangling then none else readReal digits

/-- Reads a number. -/
def readNumber : List Char → Option Datum
  | '0' :: 'x' :: rest => readBased 16 rest
  | '0' :: 'o' :: rest => readBased 8 rest
  | '0' :: 'b' :: rest => readBased 2 rest
  | cs => readDecimal cs

/-- Reads a value that is no quoted text, no list and no table. -/
def readWord (cs : List Char) : Option Datum :=
  if cs = "true".toList then some (.bool true)
  else if cs = "false".toList then some (.bool false)
  else
    match Moment.read? cs with
    | some m => some (.text m.text)
    | none => readNumber cs

/-- A character of a number, a truth value, a date or a time. -/
def isWordChar (c : Char) : Bool := Text.isNameChar c || c == '+' || c == '.' || c == ':'

/-- The characters of such a value: a word, or a day and a time with a blank between. -/
def takeWord (cs : List Char) : List Char :=
  let word := cs.takeWhile isWordChar
  match Moment.takeDay? word, cs.drop word.length with
  | some (_, []), ' ' :: c :: rest =>
    if c.isDigit then word ++ ' ' :: (c :: rest).takeWhile isWordChar else word
  | _, _ => word

/-- How many lists and small tables may stand in one another. -/
def maxDepth : Nat := 80

mutual

/-- Reads one value in a bounded number of steps; `room` more lists and small tables may
stand in one another. -/
def readValue : Nat → Nat → List Char → Option (Datum × List Char)
  | 0, _, _ => none
  | steps + 1, room, cs =>
    match cs, room with
    | '[' :: _, 0 => none
    | '{' :: _, 0 => none
    | '[' :: rest, room + 1 => readItems steps room [] rest
    | '{' :: rest, room + 1 => readFields steps room [] rest
    | '"' :: _, _ => (readQuoted cs).map fun (s, r) => (.text s, r)
    | '\'' :: _, _ => (readQuoted cs).map fun (s, r) => (.text s, r)
    | _, _ =>
      let word := takeWord cs
      (readWord word).map fun d => (d, cs.drop word.length)

/-- Reads the items of a list up to its closing bracket. -/
def readItems : Nat → Nat → List Datum → List Char → Option (Datum × List Char)
  | 0, _, _, _ => none
  | steps + 1, room, seen, cs => do
    match skipFiller cs with
    | ']' :: rest => pure (.list seen.reverse, rest)
    | cs =>
      let (item, rest) ← readValue steps room cs
      match skipFiller rest with
      | ',' :: more => readItems steps room (item :: seen) more
      | ']' :: more => pure (.list (item :: seen).reverse, more)
      | _ => none

/-- Reads the fields of a small table up to its closing brace. -/
def readFields : Nat → Nat → Node.Fields → List Char → Option (Datum × List Char)
  | 0, _, _, _ => none
  | steps + 1, room, seen, cs => do
    match skipFiller cs with
    | '}' :: rest => pure (Node.tableDatum seen, rest)
    | cs =>
      let (path, rest) ← readKey cs
      match rest with
      | '=' :: rest =>
        let (d, rest) ← readValue steps room (skipSpaces rest)
        let fields ← Node.putValue path d seen
        match skipFiller rest with
        | ',' :: more => readFields steps room fields more
        | '}' :: more => pure (Node.tableDatum fields, more)
        | _ => none
      | _ => none

end

end Toml

end ShardAllocation
