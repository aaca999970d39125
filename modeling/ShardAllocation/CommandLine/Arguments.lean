/-
The arguments of the command line.

```
shardctl [--config FILE] simulate --nodes NAMES --index NAME:SHARDS:REPLICAS ...
```

The value of an option stands after an equals sign or in an argument of its own.  A value
after an equals sign is checked at once, and a value in an argument of its own when the
next known option or the end is reached; an unknown argument in between is the first
fault.  Missing options are noticed last.

* `ArgumentForm.of` — an argument by itself;
* `Invocation.ofArguments` — what the arguments ask for;
* `UsageFault.message` — the wording of a refusal.
-/
import ShardAllocation.Simulation
import ShardAllocation.Text.Whole

namespace ShardAllocation

/-- The options that take a value. -/
inductive ValueOption where
  | config
  | nodes
  | index
  | kill
  | explain
  | maxRounds
  deriving DecidableEq, Repr

namespace ValueOption

/-- The name of an option. -/
def name : ValueOption → String
  | config => "--config"
  | nodes => "--nodes"
  | index => "--index"
  | kill => "--kill"
  | explain => "--explain"
  | maxRounds => "--max-rounds"

/-- The name of an option with the name of its value. -/
def text : ValueOption → String
  | config => "--config <CONFIG>"
  | nodes => "--nodes <NODES>"
  | index => "--index <INDICES>"
  | kill => "--kill <KILL>"
  | explain => "--explain <EXPLAIN>"
  | maxRounds => "--max-rounds <MAX_ROUNDS>"

/-- The options of a simulation. -/
def ofSimulation : List ValueOption := [config, nodes, index, kill, explain, maxRounds]

end ValueOption

/-- Why arguments are refused. -/
inductive UsageFault where
  | noArguments
  | missingCommand
  | unknownCommand (name : String)
  | unexpectedArgument (argument : String)
  | missingValue (option : ValueOption)
  | unexpectedValue (value flag : String)
  | repeated (option : String)
  | invalidValue (value : String) (option : ValueOption) (reason : String)
  | missingOptions (options : List ValueOption)
  deriving DecidableEq, Repr

namespace UsageFault

/-- The wording of a refusal, line by line. -/
def message : UsageFault → List String
  | noArguments => ["Shard allocation engine tooling"]
  | missingCommand => ["error: 'shardctl' requires a subcommand but one was not provided"]
  | unknownCommand name => [s!"error: unrecognized subcommand '{name}'"]
  | unexpectedArgument argument => [s!"error: unexpected argument '{argument}' found"]
  | missingValue option =>
    [s!"error: a value is required for '{option.text}' but none was supplied"]
  | unexpectedValue value flag =>
    [s!"error: unexpected value '{value}' for '{flag}' found; no more were expected"]
  | repeated option => [s!"error: the argument '{option}' cannot be used multiple times"]
  | invalidValue value option reason =>
    [s!"error: invalid value '{value}' for '{option.text}': {reason}"]
  | missingOptions options =>
    "error: the following required arguments were not provided:" ::
      options.map fun o => s!"  {o.text}"

end UsageFault

/-- What an argument is by itself. -/
inductive ArgumentForm where
  /-- Two dashes, after which no option comes. -/
  | separator
  /-- A name after two dashes, with what follows an equals sign. -/
  | long (name : String) (value : Option String)
  /-- Letters after one dash, of which the first decides. -/
  | short (letter : Char)
  | plain
  deriving DecidableEq, Repr

namespace ArgumentForm

/-- Splits an argument at the first equals sign. -/
def splitValue (argument : List Char) : ArgumentForm :=
  let name := String.ofList (argument.takeWhile (· != '='))
  match argument.dropWhile (· != '=') with
  | [] => long name none
  | _ :: value => long name (some (String.ofList value))

/-- What an argument is by itself. -/
def of (argument : String) : ArgumentForm :=
  match argument.toList with
  | ['-', '-'] => separator
  | '-' :: '-' :: _ => splitValue argument.toList
  | '-' :: letter :: _ => short letter
  | _ => plain

end ArgumentForm

/-- What the arguments ask for. -/
inductive Invocation where
  | version
  | help
  | simulate (config : Option String) (json : Bool) (simulation : Simulation)
  deriving DecidableEq, Repr

/-- The options as far as they have been read. -/
structure OptionsRead where
  config : Option String := none
  nodes : List NodeId := []
  indices : List IndexMetadata := []
  kill : List NodeId := []
  explain : Option ShardId := none
  rounds : Option Nat := none
  json : Bool := false

namespace Invocation

/-- Reads a number of 32 bits that is part of a value. -/
def readPart (what : String) (text : List Char) : Except String Nat :=
  match Text.readNatural (Text.wordLimit 32) text with
  | .ok n => .ok n
  | .error fault => .error s!"invalid {what} '{String.ofList text}': {fault.message}"

/-- Reads the shape of an index, such as `orders:3:1`. -/
def readIndex (value : String) : Except String IndexMetadata :=
  match Text.splitAt ':' value.toList with
  | [name, shards, replicas] => do
    let shards ← readPart "shard count" shards
    let replicas ← readPart "replica count" replicas
    pure { name := String.ofList name, shards, replicas }
  | _ => .error s!"expected name:shards:replicas, got '{value}'"

/-- Splits a text at the last occurrence of a character. -/
def splitAtLast (separator : Char) (text : List Char) : Option (List Char × List Char) :=
  let after := text.reverse.takeWhile (· != separator)
  match text.reverse.dropWhile (· != separator) with
  | [] => none
  | _ :: before => some (before.reverse, after.reverse)

/-- Reads a shard, such as `orders:2`. -/
def readShard (value : String) : Except String ShardId :=
  match splitAtLast ':' value.toList with
  | some (index, number) => do
    let number ← readPart "shard number" number
    pure { index := String.ofList index, number }
  | none => .error s!"expected index:shard, got '{value}'"

/-- Reads a number of rounds, which has 32 bits. -/
def readRounds (value : String) : Except String Nat :=
  match Text.readInteger value.toList with
  | .error fault => .error fault.message
  | .ok i =>
    if 0 ≤ i ∧ i.toNat ≤ Text.wordLimit 32 then .ok i.toNat
    else .error s!"{i} is not in 0..={Text.wordLimit 32}"

/-- Takes the value of an option over; repetition is noticed before the value is read. -/
def takeValue (o : OptionsRead) (option : ValueOption) (value : String) :
    Except UsageFault OptionsRead := do
  let once {α : Type} (found : Option α) : Except UsageFault Unit :=
    if found.isSome then .error (.repeated option.text) else .ok ()
  let valid {α : Type} (r : Except String α) : Except UsageFault α :=
    r.mapError (.invalidValue value option)
  match option with
  | .config =>
    once o.config
    if value.isEmpty then throw (.missingValue option)
    pure { o with config := some value }
  | .nodes =>
    pure { o with nodes := o.nodes ++ (Text.splitAt ',' value.toList).map String.ofList }
  | .index => pure { o with indices := o.indices ++ [← valid (readIndex value)] }
  | .kill => pure { o with kill := o.kill ++ [value] }
  | .explain =>
    once o.explain
    pure { o with explain := some (← valid (readShard value)) }
  | .maxRounds =>
    once o.rounds
    pure { o with rounds := some (← valid (readRounds value)) }

/-- The options read so far and the option that came last, whose value is still to come or
to be checked. -/
structure Progress where
  taken : OptionsRead := {}
  pending : Option (ValueOption × Option String) := none

namespace Progress

/-- The options with the value of the option that came last. -/
def settle (p : Progress) : Except UsageFault OptionsRead :=
  match p.pending with
  | none => .ok p.taken
  | some (option, none) => .error (.missingValue option)
  | some (option, some value) => takeValue p.taken option value

/-- Takes an option over, with the value after its equals sign if there is one. -/
def takeOption (p : Progress) (option : ValueOption) (value : Option String) :
    Except UsageFault Progress := do
  let taken ← p.settle
  match value with
  | some value => return { taken := ← takeValue taken option value }
  | none => pure { taken, pending := some (option, none) }

/-- Takes an argument over as the value of the option that came last, if that has none. -/
def takeArgument? (p : Progress) (argument : String) : Option Progress :=
  match p.pending with
  | some (option, none) => some { p with pending := some (option, some argument) }
  | _ => none

end Progress

/-- The simulation that the options describe; nodes and indices have to be there. -/
def finish (o : OptionsRead) : Except UsageFault Invocation :=
  let missing :=
    (if o.nodes.isEmpty then [ValueOption.nodes] else []) ++
      (if o.indices.isEmpty then [ValueOption.index] else [])
  if !missing.isEmpty then .error (.missingOptions missing)
  else .ok (.simulate o.config o.json
    { nodes := o.nodes, indices := o.indices, lost := o.kill, explain := o.explain
      rounds := o.rounds.getD 100 })

/-- Reads the flag for output as JSON. -/
def takeJson (p : Progress) : Except UsageFault Progress := do
  let taken ← p.settle
  if taken.json then throw (.repeated "--json")
  pure { taken := { taken with json := true } }

/-- The arguments ask for something that needs no further argument. -/
def ask (p : Progress) (i : Invocation) : Except UsageFault Invocation :=
  p.settle.map fun _ => i

/-- Reads the options of a simulation. -/
def readOptions (p : Progress) : List String → Except UsageFault Invocation
  | [] => do finish (← p.settle)
  | argument :: rest =>
    match ArgumentForm.of argument with
    | .separator =>
      match rest with
      | [] => do finish (← p.settle)
      | next :: _ => .error (.unexpectedArgument next)
    | .short letter =>
      if letter = 'h' then ask p .help else .error (.unexpectedArgument s!"-{letter}")
    | .long name value => do
      if let some option := ValueOption.ofSimulation.find? fun option => option.name == name then
        readOptions (← p.takeOption option value) rest
      else if name = "--json" ∨ name = "--help" then
        match value with
        | some value => throw (.unexpectedValue value name)
        | none => if name = "--help" then ask p .help else readOptions (← takeJson p) rest
      else throw (.unexpectedArgument name)
    | .plain =>
      match p.takeArgument? argument with
      | some p => readOptions p rest
      | none => .error (.unexpectedArgument argument)

/-- Reads the names after the command `help`. -/
def readHelp : List String → Except UsageFault Invocation
  | [] => .ok .help
  | name :: rest =>
    if name ≠ "simulate" ∧ name ≠ "help" then .error (.unknownCommand name)
    else
      match rest with
      | [] => .ok .help
      | next :: _ => .error (.unknownCommand next)

/-- Reads what follows `--` in place of a command. -/
def readSeparated (p : Progress) : List String → Except UsageFault Invocation
  | [] => do
    let taken ← p.settle
    throw (if taken.config.isSome then .missingCommand else .noArguments)
  | next :: _ =>
    .error (if next = "simulate" ∨ next = "help" then .unexpectedArgument next
      else .unknownCommand next)

/-- What the options of a simulation ask for, with the configuration file that is named
before the command, unless they name one themselves. -/
def inherit (p : Progress) : Invocation → Except UsageFault Invocation
  | .simulate own json simulation => do
    let outer ← p.settle
    pure (.simulate (own <|> outer.config) json simulation)
  | i => .ok i

/-- Reads what stands before the command. -/
def readCommand (p : Progress) : List String → Except UsageFault Invocation
  | [] => readSeparated p []
  | argument :: rest =>
    match ArgumentForm.of argument with
    | .separator => readSeparated p rest
    | .short letter =>
      if letter = 'h' then ask p .help
      else if letter = 'V' then ask p .version
      else .error (.unexpectedArgument s!"-{letter}")
    | .long name value => do
      if name = "--config" then readCommand (← p.takeOption .config value) rest
      else if name = "--version" ∨ name = "--help" then
        match value with
        | some value => throw (.unexpectedValue value name)
        | none => ask p (if name = "--help" then .help else .version)
      else throw (.unexpectedArgument name)
    | .plain =>
      match p.takeArgument? argument with
      | some p => readCommand p rest
      | none =>
        if argument = "simulate" then readOptions {} rest >>= inherit p
        else if argument = "help" then readHelp rest
        else .error (.unknownCommand argument)

/-- What the arguments ask for. -/
def ofArguments (arguments : List String) : Except UsageFault Invocation :=
  readCommand {} arguments

end Invocation

end ShardAllocation
