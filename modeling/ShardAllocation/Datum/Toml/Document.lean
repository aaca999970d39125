/-
TOML texts.

A text is read line by line into statements: headers, which open a table, and
assignments.  The statements then build a tree, in which no key is assigned twice and no
table is opened twice.

* `readStatements` — from the text to statements;
* `build` — from statements to the tree;
* `read` — from the text to its plain value.
-/
import ShardAllocation.Datum.Toml.Value

namespace ShardAllocation

namespace Toml

/-- A line of a TOML text. -/
inductive Statement where
  /-- Opens a table. -/
  | header (path : List String)
  /-- Appends a table to a list of tables and opens it. -/
  | element (path : List String)
  | assign (path : List String) (value : Datum)

/-- Reads one statement. -/
def readStatement (cs : List Char) : Option (Statement × List Char) := do
  match cs with
  | '[' :: '[' :: rest =>
    let (path, rest) ← readKey rest
    match rest with
    | ']' :: ']' :: rest => (endOfLine? rest).map fun r => (.element path, r)
    | _ => none
  | '[' :: rest =>
    let (path, rest) ← readKey rest
    match rest with
    | ']' :: rest => (endOfLine? rest).map fun r => (.header path, r)
    | _ => none
  | _ =>
    let (path, rest) ← readKey cs
    match rest with
    | '=' :: rest =>
      let (value, rest) ← readValue (2 * rest.length + 2) maxDepth (skipSpaces rest)
      (endOfLine? rest).map fun r => (.assign path value, r)
    | _ => none

/-- Reads statements up to the end of the text. -/
def readStatements : Nat → List Char → Option (List Statement)
  | 0, _ => none
  | steps + 1, cs =>
    match skipFiller cs with
    | [] => some []
    | cs => do
      let (statement, rest) ← readStatement cs
      let statements ← readStatements steps rest
      pure (statement :: statements)

/-- A tree under construction. -/
structure Document where
  fields : Node.Fields := []
  /-- The table that assignments go to. -/
  current : List String := []

namespace Document

/-- Opens the table of a name, which has no header yet and was made by no key. -/
def openTable (name : String) (fields : Node.Fields) : Option Node.Fields :=
  match Node.find? name fields with
  | none => some (SortedMap.insertEntry name (.table .header []) fields)
  | some (.table .passage inner) =>
    some (SortedMap.insertEntry name (.table .header inner) fields)
  | some _ => none

/-- Appends a table to the list of tables of a name. -/
def openElement (name : String) (fields : Node.Fields) : Option Node.Fields :=
  match Node.find? name fields with
  | none => some (SortedMap.insertEntry name (.tables [[]]) fields)
  | some (.tables elements) =>
    some (SortedMap.insertEntry name (.tables (elements ++ [[]])) fields)
  | some _ => none

/-- Opens a table below the tables of a path. -/
def enter (opener : String → Node.Fields → Option Node.Fields) (path : List String)
    (d : Document) : Option Document := do
  let name ← path.getLast?
  let fields ← Node.updateAt .passage (fun _ => opener name) path.dropLast .header d.fields
  pure { fields, current := path }

/-- Takes one statement into the tree. -/
def apply (d : Document) : Statement → Option Document
  | .header path => d.enter openTable path
  | .element path => d.enter openElement path
  | .assign path value => do
    let fields ←
      Node.updateAt .passage (fun _ => Node.putValue path value) d.current .header d.fields
    pure { d with fields }

end Document

/-- The plain value of some statements. -/
def build (statements : List Statement) : Option Datum :=
  (statements.foldlM Document.apply {}).map fun d => Node.tableDatum d.fields

/-- Reads a TOML text. -/
def read (text : String) : Option Datum := do
  let cs := text.toList
  let statements ← readStatements (cs.length + 1) cs
  build statements

end Toml

end ShardAllocation
