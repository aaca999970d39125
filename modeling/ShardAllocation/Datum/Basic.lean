/-
Trees of plain values, as JSON and TOML texts describe them.

Whole numbers and numbers with a fraction or an exponent are kept apart.  The fields of a
record that was read are in the order of their names.
-/
import ShardAllocation.Binary.Basic
import ShardAllocation.SortedMap

namespace ShardAllocation

/-- A tree of plain values. -/
inductive Datum where
  | null
  | bool (b : Bool)
  | integer (i : Int)
  | real (x : Binary)
  | text (s : String)
  | list (items : List Datum)
  | record (fields : List (String × Datum))
  deriving Inhabited, Repr

namespace Datum

/-- The value of a field of a record. -/
def field? (d : Datum) (name : String) : Option Datum :=
  match d with
  | record fields => (fields.find? fun f => f.1 == name).map (·.2)
  | _ => none

/-- The fields of a record. -/
def fields? : Datum → Option (List (String × Datum))
  | record fields => some fields
  | _ => none

/-- The items of a list. -/
def items? : Datum → Option (List Datum)
  | list items => some items
  | _ => none

/-- Puts a field among fields that are in the order of their names. -/
def putField (name : String) (value : Datum) (fields : List (String × Datum)) :
    List (String × Datum) :=
  SortedMap.insertEntry name value fields

/-- A natural number as a value. -/
def natural (n : Nat) : Datum := integer n

/-- A list of texts as a value. -/
def texts (ts : List String) : Datum := list (ts.map text)

/-- The value of an optional part, null if there is none. -/
def ofOption {α : Type} (f : α → Datum) : Option α → Datum
  | some a => f a
  | none => null

/-- The field of an optional part, no field if there is none. -/
def optionalField {α : Type} (name : String) (f : α → Datum) : Option α → List (String × Datum)
  | some a => [(name, f a)]
  | none => []

end Datum

end ShardAllocation
