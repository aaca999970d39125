/-
The command line `shardctl`: reads the configuration, the environment and the clock, and
prints what the command line library answers.
-/
import ShardAllocation.CommandLine.Output
import Std.Time.DateTime.Timestamp

namespace ShardAllocation

/-- The format that the name of a configuration file stands for. -/
def configFormat? (path : String) : Option ConfigFormat :=
  if path.endsWith ".toml" then some .toml
  else if path.endsWith ".json" then some .json
  else none

/-- Reads a configuration file. -/
def readConfigFile (path : String) : IO ConfigFile := do
  match configFormat? path with
  | none => pure .unreadable
  | some format =>
    try
      return .present format (← IO.FS.readFile path)
    catch _ =>
      pure .unreadable

/-- The variables of the environment that are about the configuration. -/
def readVariables : IO (List (String × String)) :=
  Config.variableNames.filterMapM fun name => do
    return (← IO.getEnv name).map fun value => (name, value)

/-- The present time. -/
def readClock : IO Instant := do
  let elapsed := (← Std.Time.Timestamp.now).toNanosecondsSinceUnixEpoch.val
  return ⟨elapsed / Instant.perSecond, (elapsed % Instant.perSecond).toNat⟩

/-- Answers the arguments of the command line. -/
def answerArguments (arguments : List String) : IO CommandOutput := do
  match Invocation.ofArguments arguments with
  | .error fault => pure fault.output
  | .ok invocation =>
    let file ← match invocation.configPath? with
      | some path => readConfigFile path
      | none => pure .absent
    return invocation.run file (← readVariables) (← readClock)

end ShardAllocation

open ShardAllocation

def main (arguments : List String) : IO UInt32 := do
  let output ← answerArguments arguments
  output.lines.forM IO.println
  output.errors.forM IO.eprintln
  return output.exitCode.toUInt32
