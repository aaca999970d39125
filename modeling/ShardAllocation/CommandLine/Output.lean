/-
What the command line prints.

The result of a simulation is a table of the copies with a line on the health of the
cluster, or one JSON value.  Refused arguments end with code 2, failed simulations and
faulty configurations with code 1.
-/
import ShardAllocation.CommandLine.Arguments
import ShardAllocation.Config
import ShardAllocation.Datum.Json
import ShardAllocation.Form.Allocation
import ShardAllocation.Release

namespace ShardAllocation

/-- What a run of the command line printed, line by line, and how it ended. -/
structure CommandOutput where
  exitCode : Nat := 0
  lines : List String := []
  errors : List String := []
  deriving DecidableEq, Repr

namespace ClusterState

/-- The table of the copies, line by line. -/
def tableLines (s : ClusterState) : List String :=
  s!"cluster state version {s.version}" :: s.table.values.flatMap fun index =>
    s!"index [{index.index}]" :: index.copies.map fun c => s!"  {c}"

end ClusterState

namespace Explanation

/-- The explanation, line by line. -/
def lines (e : Explanation) : List String :=
  let remain := e.remain.toList.map fun n => s!"  can remain on [{n.node}]: {n.decision}"
  let nodes := e.nodes.flatMap fun n =>
    s!"  [{n.node}] {n.decision}" :: n.verdicts.map fun v => s!"    {v.text}"
  let attempts := e.history.map fun a =>
    let role := if a.primary then "primary" else "replica"
    s!"  earlier attempt ({role}): {a.outcome}"
  s!"explain {e.shard}: {e.decision}" :: s!"  copy: {e.copy}" :: (remain ++ nodes ++ attempts)

end Explanation

namespace SimulationResult

/-- The result as a table. -/
def lines (r : SimulationResult) : List String :=
  r.state.tableLines ++ [(ClusterHealth.ofState r.state).text] ++
    (r.explanation.map Explanation.lines).getD []

/-- The result as a plain value. -/
def toDatum (r : SimulationResult) : Datum :=
  .record ([("version", .natural r.state.version),
      ("health", Form.ofHealth (ClusterHealth.ofState r.state)),
      ("routing_table", Form.ofTable r.state.table)] ++
    Datum.optionalField "explanation" Form.ofExplanation r.explanation)

end SimulationResult

namespace Invocation

/-- A summary of the arguments. -/
def usage : List String :=
  ["Shard allocation engine tooling",
    "",
    "Usage: shardctl [OPTIONS] simulate [OPTIONS] --nodes <NODES> --index <INDICES>",
    "",
    "Options:",
    "      --config <CONFIG>          Configuration file (TOML)",
    "      --nodes <NODES>            Live node ids (comma-separated)",
    "      --index <INDICES>          Index as name:shards:replicas (repeatable)",
    "      --kill <KILL>              Nodes to remove after the first convergence (repeatable)",
    "      --explain <EXPLAIN>        Explain a shard (index:shard) after the last convergence",
    "      --max-rounds <MAX_ROUNDS>  Maximum reroute rounds per convergence [default: 100]",
    "      --json                     Print JSON instead of a table",
    "  -h, --help                     Print help",
    "  -V, --version                  Print version"]

/-- The configuration file that has to be read, if any. -/
def configPath? : Invocation → Option String
  | simulate config _ _ => config
  | _ => none

/-- Carries out what the arguments ask for, with the configuration file, the variables of
the environment and the time of the first pass. -/
def run (i : Invocation) (file : ConfigFile) (environment : List (String × String))
    (time : Instant) : CommandOutput :=
  match i with
  | version => { lines := [s!"shardctl {Release.version}"] }
  | help => { lines := usage }
  | simulate _ json simulation =>
    match Config.load file environment with
    | .error fault =>
      { exitCode := 1
        errors := ["Error: loading configuration", "", "Caused by:", s!"    {fault.message}"] }
    | .ok config =>
      match simulation.run config.settings time with
      | .error fault => { exitCode := 1, errors := [s!"Error: {fault.message}"] }
      | .ok result =>
        { lines := if json then Json.writeLines result.toDatum else result.lines }

end Invocation

namespace UsageFault

/-- What is printed when the arguments are refused. -/
def output (fault : UsageFault) : CommandOutput :=
  let hint := match fault with
    | noArguments => Invocation.usage.drop 1
    | _ => ["", "For more information, try '--help'."]
  { exitCode := 2, errors := fault.message ++ hint }

end UsageFault

end ShardAllocation
