/-
The tree of a TOML text while it is read.

A table remembers what has made it, because that decides who may still add to it: a table
that a dotted key has made is open to dotted keys only, a table that has its own header
is closed to them, and a value that was written out, a small table included, is closed to
all.

* `Node.updateAt` — changes the table at a path and makes the tables on the way;
* `Node.putValue` — puts a value under a dotted key;
* `Node.tableDatum` — the plain value of a finished table.
-/
import ShardAllocation.Datum.Basic

namespace ShardAllocation

namespace Toml

/-- What has made a table. -/
inductive Origin where
  /-- A header of its own. -/
  | header
  /-- A header that goes on to an inner table. -/
  | passage
  /-- A dotted key that goes on to an inner value. -/
  | key
  deriving DecidableEq, Repr

/-- A part of a tree under construction. -/
inductive Node where
  | value (d : Datum)
  | table (origin : Origin) (fields : List (String × Node))
  /-- A list of tables, of which only the last one is still open. -/
  | tables (elements : List (List (String × Node)))

namespace Node

/-- The fields of a table. -/
abbrev Fields := List (String × Node)

/-- The field of a name. -/
def find? (name : String) (fields : Fields) : Option Node :=
  (fields.find? fun f => f.1 == name).map (·.2)

/-- Changes the table at a path below a table.  `maker` makes the tables that are missing
on the way; a key does not go through tables with a header of their own. -/
def updateAt (maker : Origin) (f : Origin → Fields → Option Fields) :
    List String → Origin → Fields → Option Fields
  | [], origin, fields => f origin fields
  | name :: path, _, fields =>
    let put (inner : Node) : Fields := SortedMap.insertEntry name inner fields
    match find? name fields with
    | none => (updateAt maker f path maker []).map fun inner => put (.table maker inner)
    | some (.table origin inner) =>
      if maker = .key ∧ origin = .header then none
      else (updateAt maker f path origin inner).map fun inner => put (.table origin inner)
    | some (.tables elements) => do
      let inner ← updateAt maker f path .header (← elements.getLast?)
      pure (put (.tables (elements.dropLast ++ [inner])))
    | some (.value _) => none

/-- Puts a value under a key, which is in a table of its own kind only and is used only
once. -/
def putValue (path : List String) (d : Datum) (fields : Fields) : Option Fields := do
  let name ← path.getLast?
  let isDotted := path.length != 1
  updateAt .key (fun origin fields =>
    if (origin == .key) != isDotted || (find? name fields).isSome then none
    else some (SortedMap.insertEntry name (.value d) fields)) path.dropLast .header fields

mutual

/-- The plain value of a part. -/
def toDatum : Node → Datum
  | value d => d
  | table _ fields => .record (fieldData fields)
  | tables elements => .list (tableData elements)

/-- The plain values of the fields of a table. -/
def fieldData : List (String × Node) → List (String × Datum)
  | [] => []
  | (name, node) :: rest => (name, toDatum node) :: fieldData rest

/-- The plain values of several tables. -/
def tableData : List (List (String × Node)) → List Datum
  | [] => []
  | fields :: rest => .record (fieldData fields) :: tableData rest

end

/-- The plain value of a table. -/
def tableDatum (fields : Fields) : Datum := .record (fieldData fields)

end Node

end Toml

end ShardAllocation
