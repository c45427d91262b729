import TaskRelay.Journal
import TaskRelay.Json.Printer
import TaskRelay.Startup

/-!
# The worker program

Reads the variables and an environment file, and reports how the start went.
-/

set_option autoImplicit false

namespace TaskRelay

def logLine (format : LogFormat) (message : String) : String :=
  match format with
  | .text => "INFO " ++ message
  | .json =>
    (Json.object [("level", .text Level.info.text), ("message", .text message)]).render

def readEnvironment : IO Environment := do
  let found ← Startup.variableNames.filterMapM fun name => do
    let value ← IO.getEnv name
    return value.map fun s => (name, EnvValue.text s)
  return Table.ofList found

def readFile : IO (Option String) := do
  try
    return some (← IO.FS.readFile ".env")
  catch _ => return none

end TaskRelay

def main : IO UInt32 := do
  let report := TaskRelay.Startup.run (← TaskRelay.readEnvironment) (← TaskRelay.readFile)
  for message in report.logged do
    IO.println (TaskRelay.logLine report.format message)
  IO.eprint report.errors
  return UInt32.ofNat report.exitCode
