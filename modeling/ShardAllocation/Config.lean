/-
The configuration: settings from a file and from the environment.

Built-in defaults are overridden by a file, and the file by environment variables.  The
keys of a file are paths.  The name of a variable starts with `SHARDALLOC_`; the rest, in
small letters and with points for double underscores, is a path, too.  Values convert to
the kind that an option needs: numbers and truth values may be written as texts and the
other way round, and a group of options may be given as the list of their values.

* `ofFile` — the fields of a file;
* `place` — puts a value at the path that a name stands for;
* `load` — the checked configuration.
-/
import ShardAllocation.Datum.Path
import ShardAllocation.Datum.Toml.Document
import ShardAllocation.Settings

namespace ShardAllocation

/-- The configuration of the engine. -/
structure Config where
  logLevel : String := "info"
  settings : Settings := {}
  deriving DecidableEq, Repr

/-- The formats of configuration files. -/
inductive ConfigFormat where
  | toml
  | json
  deriving DecidableEq, Repr

/-- A configuration file: there is none, it cannot be read, or it has a text. -/
inductive ConfigFile where
  | absent
  | unreadable
  | present (format : ConfigFormat) (text : String)
  deriving DecidableEq, Repr

namespace Config

/-- The fault of a configuration that cannot be read. -/
def unusable {α : Type} (detail : String) : Except Fault α := .error (.config detail)

/-- Words for yes. -/
def yesWords : List String := ["true", "on", "yes"]

/-- Words for no. -/
def noWords : List String := ["false", "off", "no"]

/-- The text in small letters. -/
def lowered (s : String) : String := String.ofList (Text.lower s.toList)

/-- A value as a text. -/
def toText : Datum → Except Fault String
  | .text s => .ok s
  | .bool b => .ok (if b then "true" else "false")
  | .integer i => .ok (Json.writeScalar (.integer i))
  | .real x => .ok (x.shortest .double)
  | _ => unusable "invalid type, expected a string"

/-- A value as a truth value. -/
def toBool : Datum → Except Fault Bool
  | .bool b => .ok b
  | .integer i => .ok (i != 0)
  | .real x => .ok (Binary.order? x (Binary.natural 0) != some .eq)
  | .text s =>
    let word := lowered s
    if word = "1" ∨ word ∈ yesWords then .ok true
    else if word = "0" ∨ word ∈ noWords then .ok false
    else unusable "invalid type, expected a boolean"
  | _ => unusable "invalid type, expected a boolean"

/-- A value as a natural number of 64 bits; a fraction is rounded, a half up. -/
def toNatural : Datum → Except Fault Nat
  | .integer i =>
    if 0 ≤ i ∧ i.toNat ≤ Text.wordLimit 64 then .ok i.toNat
    else unusable "invalid value, expected an unsigned integer"
  | .bool b => .ok b.toNat
  | .real x => .ok (x.roundToNat (Text.wordLimit 64))
  | .text s =>
    let word := lowered s
    if word ∈ yesWords then .ok 1
    else if word ∈ noWords then .ok 0
    else
      match Text.readNatural (Text.wordLimit 64) s.toList with
      | .ok n => .ok n
      | .error fault => unusable fault.message
  | _ => unusable "invalid type, expected an unsigned integer"

/-- A value as a double. -/
def toReal : Datum → Except Fault Binary
  | .real x => .ok x
  | .integer i => .ok (Binary.ofInt .double i)
  | .bool b => .ok (Binary.ofNat .double b.toNat)
  | .text s =>
    let word := lowered s
    if word ∈ yesWords then .ok (Binary.ofNat .double 1)
    else if word ∈ noWords then .ok (Binary.ofNat .double 0)
    else
      match Binary.ofText? .double s with
      | some x => .ok x
      | none => unusable "invalid type, expected a floating point"
  | _ => unusable "invalid type, expected a floating point"

/-- A value as one of several words: the word itself, or the only field of a table. -/
def toOneOf {α : Type} (values : List α) (name : α → String) (d : Datum) : Except Fault α :=
  let word? := match d with
    | .text s => some s
    | .record [(field, _)] => some field
    | _ => none
  match word?.bind fun word => values.find? fun a => name a == word with
  | some a => .ok a
  | none => unusable "enum does not have variant constructor"

/-- An option of a group, or its default; in a list it has a fixed position. -/
def option {α : Type} (d : Datum) (position : Nat) (name : String) (default : α)
    (f : Datum → Except Fault α) : Except Fault α :=
  let value? := match d with
    | .list items => items[position]?
    | _ => d.field? name
  match value? with
  | some value => f value
  | none => .ok default

/-- The value has to be a group of options. -/
def expectGroup (d : Datum) : Except Fault Unit :=
  match d with
  | .record _ => .ok ()
  | .list _ => .ok ()
  | _ => unusable "invalid type, expected a table"

/-- A value as a watermark. -/
def toWatermark (d : Datum) : Except Fault Watermark := do
  match Watermark.ofText (← toText d) with
  | .ok mark => pure mark
  | .error fault => unusable fault.message

/-- The disk options. -/
def toDiskSettings (d : Datum) : Except Fault DiskSettings := do
  expectGroup d
  let default : DiskSettings := {}
  let enabled ← option d 0 "enabled" default.enabled toBool
  let lowWatermark ← option d 1 "low_watermark" default.lowWatermark toWatermark
  let highWatermark ← option d 2 "high_watermark" default.highWatermark toWatermark
  pure { enabled, lowWatermark, highWatermark }

/-- The options of the rebalancer. -/
def toRebalanceSettings (d : Datum) : Except Fault RebalanceSettings := do
  expectGroup d
  let default : RebalanceSettings := {}
  let enable ← option d 0 "enable" default.enable (toOneOf RebalanceMode.modes (·.text))
  let allow ← option d 1 "allow" default.allow (toOneOf RebalanceGate.gates (·.text))
  let threshold ← option d 2 "threshold" default.threshold fun v =>
    (toReal v).map (Binary.convert .single)
  pure { enable, allow, threshold }

/-- The allocation options. -/
def toSettings (d : Datum) : Except Fault Settings := do
  expectGroup d
  let default : Settings := {}
  let nodeConcurrentRecoveries ←
    option d 0 "node_concurrent_recoveries" default.nodeConcurrentRecoveries toNatural
  let nodeInitialPrimariesRecoveries ←
    option d 1 "node_initial_primaries_recoveries" default.nodeInitialPrimariesRecoveries toNatural
  let clusterConcurrentRecoveries ←
    option d 2 "cluster_concurrent_recoveries" default.clusterConcurrentRecoveries toNatural
  let clusterConcurrentRebalance ←
    option d 3 "cluster_concurrent_rebalance" default.clusterConcurrentRebalance toNatural
  let disk ← option d 4 "disk" default.disk toDiskSettings
  let rebalance ← option d 5 "rebalance" default.rebalance toRebalanceSettings
  pure { nodeConcurrentRecoveries, nodeInitialPrimariesRecoveries, clusterConcurrentRecoveries
         clusterConcurrentRebalance, disk, rebalance }

/-- The configuration that a tree of values describes. -/
def ofDatum (d : Datum) : Except Fault Config := do
  expectGroup d
  let logLevel ← option d 0 "log_level" "info" toText
  let settings ← option d 1 "allocation" {} toSettings
  pure { logLevel, settings }

/-- The text of a file without the byte order mark that may precede it. -/
def withoutMark (text : String) : String :=
  match text.toList with
  | '\ufeff' :: rest => String.ofList rest
  | _ => text

/-- The fields of a file. -/
def ofFile : ConfigFile → Except Fault (List (String × Datum))
  | .absent => .ok []
  | .unreadable => unusable "configuration file not found"
  | .present format text =>
    let tree := match format with
      | .toml => Toml.read (withoutMark text)
      | .json => Json.read (withoutMark text)
    match tree with
    | some (.record fields) => .ok fields
    | _ => unusable "configuration file cannot be parsed"

/-- Puts a value at the path that a name stands for; a name that is no path is the name of
a field. -/
def place (d : Datum) (name : String) (value : Datum) : Datum :=
  Path.put ((Path.read? name.toList).getD [.field name]) value d

/-- The start of the names of variables, in small letters. -/
def variablePrefix : String := "shardalloc_"

/-- The names of the variables of the environment, one for each option. -/
def variableNames : List String :=
  ["SHARDALLOC_LOG_LEVEL",
    "SHARDALLOC_ALLOCATION__NODE_CONCURRENT_RECOVERIES",
    "SHARDALLOC_ALLOCATION__NODE_INITIAL_PRIMARIES_RECOVERIES",
    "SHARDALLOC_ALLOCATION__CLUSTER_CONCURRENT_RECOVERIES",
    "SHARDALLOC_ALLOCATION__CLUSTER_CONCURRENT_REBALANCE",
    "SHARDALLOC_ALLOCATION__DISK__ENABLED",
    "SHARDALLOC_ALLOCATION__DISK__LOW_WATERMARK",
    "SHARDALLOC_ALLOCATION__DISK__HIGH_WATERMARK",
    "SHARDALLOC_ALLOCATION__REBALANCE__ENABLE",
    "SHARDALLOC_ALLOCATION__REBALANCE__ALLOW",
    "SHARDALLOC_ALLOCATION__REBALANCE__THRESHOLD"]

/-- The small letter of a letter that has one in ASCII.  The Kelvin sign is the only such
letter beyond ASCII. -/
def smallLetter (c : Char) : Char := if c = '\u212a' then 'k' else c.toLower

/-- Writes points for double underscores. -/
def withPoints : List Char → List Char
  | '_' :: '_' :: rest => '.' :: withPoints rest
  | c :: rest => c :: withPoints rest
  | [] => []

/-- The name that a variable stands for, if it is about the configuration. -/
def variableName? (given : String) : Option String :=
  (Text.afterStart? variablePrefix.toList (given.toList.map smallLetter)).map fun rest =>
    String.ofList (withPoints rest)

/-- The value of a variable: a truth value, a number, or else a text. -/
def variableValue (text : String) : Datum :=
  let word := lowered text
  if word = "true" then .bool true
  else if word = "false" then .bool false
  else
    match Text.readInteger text.toList with
    | .ok i => .integer i
    | .error _ =>
      match Binary.ofText? .double text with
      | some x => .real x
      | none => .text text

/-- The tree of the fields of a file and the variables of the environment, which win. -/
def tree (fields : List (String × Datum)) (environment : List (String × String)) : Datum :=
  let overrides := environment.filterMap fun (name, text) =>
    (variableName? name).map fun name => (name, variableValue text)
  (fields ++ overrides).foldl (fun d (name, value) => place d name value) (.record [])

/-- Loads the configuration and checks it. -/
def load (file : ConfigFile) (environment : List (String × String)) : Except Fault Config := do
  let config ← ofDatum (tree (← ofFile file) environment)
  config.settings.validate
  pure config

end Config

end ShardAllocation
