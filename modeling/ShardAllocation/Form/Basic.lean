/-
Reading domain values from plain values.

A value has the wrong shape, or it has the right shape and is refused by the domain.
Fields that are not asked for are ignored.
-/
import ShardAllocation.Datum.Basic
import ShardAllocation.Fault
import ShardAllocation.Text.Whole

namespace ShardAllocation

/-- Why a plain value does not stand for a domain value. -/
inductive FormFault where
  | shape
  | refused (fault : Fault)
  deriving DecidableEq, Repr

namespace Form

/-- A domain value, or why there is none. -/
abbrev Reading := Except FormFault

/-- The largest number of 32 bits. -/
def limit32 : Nat := Text.wordLimit 32

/-- The largest number of 64 bits. -/
def limit64 : Nat := Text.wordLimit 64

/-- The value has the wrong shape. -/
def misshapen {α : Type} : Reading α := .error .shape

/-- A text. -/
def text : Datum → Reading String
  | .text s => .ok s
  | _ => misshapen

/-- A truth value. -/
def bool : Datum → Reading Bool
  | .bool b => .ok b
  | _ => misshapen

/-- A natural number up to a limit. -/
def natural (limit : Nat) : Datum → Reading Nat
  | .integer i => if 0 ≤ i ∧ i.toNat ≤ limit then .ok i.toNat else misshapen
  | _ => misshapen

/-- A list of values of one kind. -/
def listOf {α : Type} (f : Datum → Reading α) : Datum → Reading (List α)
  | .list items => items.mapM f
  | _ => misshapen

/-- The fields of a record. -/
def record : Datum → Reading (List (String × Datum))
  | .record fields => .ok fields
  | _ => misshapen

/-- One of several values, by its written form. -/
def oneOf {α : Type} (values : List α) (name : α → String) : Datum → Reading α
  | .text s =>
    match values.find? fun a => name a == s with
    | some a => .ok a
    | none => misshapen
  | _ => misshapen

/-- A field that has to be there. -/
def required {α : Type} (d : Datum) (name : String) (f : Datum → Reading α) : Reading α :=
  match d.field? name with
  | some value => f value
  | none => misshapen

/-- A field that may be missing or null. -/
def optional {α : Type} (d : Datum) (name : String) (f : Datum → Reading α) :
    Reading (Option α) :=
  match d.field? name with
  | none => .ok none
  | some .null => .ok none
  | some value => (f value).map some

/-- A field that may be missing. -/
def orDefault {α : Type} (d : Datum) (name : String) (default : α) (f : Datum → Reading α) :
    Reading α :=
  match d.field? name with
  | some value => f value
  | none => .ok default

/-- The values of a record by their names. -/
def mapOf {α : Type} (f : Datum → Reading α) (d : Datum) : Reading (SortedMap String α) := do
  let entries ← (← record d).mapM fun (name, value) => (f value).map fun a => (name, a)
  pure (SortedMap.ofList entries)

end Form

end ShardAllocation
