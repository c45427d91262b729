import TaskRelay.Server.Endpoint
import TaskRelay.Settings.EnvFile
import TaskRelay.Settings.Runner
import TaskRelay.Settings.Stream

/-!
# Starting a worker

A worker process announces itself, reads its settings from the variables, the
connection first, then the stream and the runner, and connects. The first thing
that fails ends it.
-/

set_option autoImplicit false

namespace TaskRelay

inductive LogFormat
  | text
  | json
  deriving DecidableEq, Repr

def LogFormat.ofEnvironment (env : Environment) : LogFormat :=
  match env.text? "LOG_FORMAT" with
  | some s => if s.toList.map Char.toLower = "json".toList then .json else .text
  | none => .text

namespace Startup

def banner : String := "StreamTask Worker v0.1.0 starting..."

def variableNames : List String :=
  ["LOG_FORMAT", "REDIS_URL", "REDIS_ADDR", "REDIS_CLUSTER", "REDIS_USERNAME", "REDIS_PASSWORD",
    "REDIS_DB", "REDIS_TLS", "REDIS_TLS_INSECURE", "REDIS_CONNECTION_TIMEOUT_SECS",
    "REDIS_COMMAND_TIMEOUT_SECS", "STREAM_NAME", "STREAM_GROUP", "STREAM_CONSUMER",
    "STREAM_BLOCK_MS", "STREAM_MAX_LENGTH", "WORKER_CONCURRENCY"]

structure Settings where
  connection : ConnectionSettings
  stream : StreamSettings
  runner : RunnerSettings

def settings (env : Environment) : Except String Settings :=
  match ConnectionSettings.ofEnvironment env with
  | .error e => .error e.message
  | .ok connection =>
    match StreamSettings.ofEnvironment env with
    | .error e => .error e.message
    | .ok stream =>
      match RunnerSettings.ofEnvironment env with
      | .error f => .error f.message
      | .ok runner => .ok ⟨connection, stream, runner⟩

structure Report where
  format : LogFormat
  logged : List String
  errors : String
  exitCode : Nat

def run (env : Environment) (file : Option String) : Report :=
  let filled := match file with
    | some text => env.fillFrom text
    | none => env
  let reason := match settings filled with
    | .error message => message
    | .ok s => s.connection.unanswered.message
  { format := .ofEnvironment env
    logged := [banner]
    errors := s!"Error: {reason}\n"
    exitCode := 1 }

end Startup

end TaskRelay
