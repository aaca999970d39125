/-
Paths into trees of plain values.

The written form of a path is a name followed by further names after points and by
positions in brackets, such as `disk.marks[0]`.

* `Path.read?` — reads the written form;
* `Path.put` — puts a value at a path; tables are merged, and what is in the way of the
  path gives way.
-/
import ShardAllocation.Datum.Basic
import ShardAllocation.Text.Blank
import ShardAllocation.Text.Whole

namespace ShardAllocation

/-- One step into a tree of plain values. -/
inductive PathStep where
  | field (name : String)
  /-- An item of a list; a negative position counts from the end. -/
  | item (position : Int)
  deriving DecidableEq, Repr

/-- The steps from the root of a tree to one of its values. -/
abbrev Path := List PathStep

namespace Path

/-- Reads a name. -/
def readName? (cs : List Char) : Option (String × List Char) :=
  let name := cs.takeWhile Text.isNameChar
  if name.isEmpty then none else some (String.ofList name, cs.drop name.length)

/-- Drops blanks within a line. -/
def skipSpaces (cs : List Char) : List Char := cs.dropWhile fun c => c == ' ' || c == '\t'

/-- Reads a position up to its closing bracket. -/
def readPosition? (cs : List Char) : Option (Int × List Char) := do
  let cs := skipSpaces cs
  let sign := match cs with
    | '-' :: _ => 1
    | _ => 0
  let length := sign + ((cs.drop sign).takeWhile Char.isDigit).length
  match Text.readInteger (cs.take length), skipSpaces (cs.drop length) with
  | .ok position, ']' :: rest => pure (position, rest)
  | _, _ => none

/-- Reads the steps after the first in a bounded number of steps. -/
def readSteps : Nat → List Char → Option Path
  | _, [] => some []
  | 0, _ => none
  | steps + 1, '.' :: cs => do
    let (name, rest) ← readName? cs
    return .field name :: (← readSteps steps rest)
  | steps + 1, '[' :: cs => do
    let (position, rest) ← readPosition? cs
    return .item position :: (← readSteps steps rest)
  | _, _ => none

/-- Reads the written form of a path. -/
def read? (cs : List Char) : Option Path := do
  let (name, rest) ← readName? cs
  return .field name :: (← readSteps rest.length rest)

mutual

/-- Merges a value into another: the fields of a table go over to the other table, and
anything else takes its place. -/
def merge : Datum → Datum → Datum
  | .record fields, old => .record (mergeFields fields (old.fields?.getD []))
  | new, _ => new

/-- Merges fields into those of a table. -/
def mergeFields : List (String × Datum) → List (String × Datum) → List (String × Datum)
  | [], old => old
  | (name, value) :: rest, old =>
    let present := ((Datum.record old).field? name).getD .null
    mergeFields rest (Datum.putField name (merge value present) old)

end

/-- The items of a list with room for a position, and the position from the start. -/
def makeRoom (position : Int) (items : List Datum) : List Datum × Nat :=
  if 0 ≤ position then
    (items ++ List.replicate (position.toNat + 1 - items.length) .null, position.toNat)
  else
    let back := position.natAbs
    (List.replicate (back - items.length) .null ++ items, items.length - back)

/-- Changes the value at a path.  What is no table or no list where the path needs one
gives way to an empty one. -/
def update (f : Datum → Datum) : Path → Datum → Datum
  | [], d => f d
  | .field name :: path, d =>
    let inner := (d.field? name).getD .null
    .record (Datum.putField name (update f path inner) (d.fields?.getD []))
  | .item position :: path, d =>
    let (items, i) := makeRoom position (d.items?.getD [])
    .list (items.modify i (update f path))

/-- Puts a value at a path. -/
def put (path : Path) (value : Datum) (d : Datum) : Datum := update (merge value) path d

end Path

end ShardAllocation
