import TaskRelay.Settings.Environment

/-!
# Runner settings

How many tasks a runner has in flight, how long it lets them end after a
shutdown, and how long it pauses after a request that failed.
-/

set_option autoImplicit false

namespace TaskRelay

structure RunnerSettings where
  maxTasks : Nat
  /-- In milliseconds. -/
  drain : Nat
  /-- In milliseconds. -/
  backoff : Nat
  deriving DecidableEq, Repr

namespace RunnerSettings

def default : RunnerSettings := ⟨4, 30000, 1000⟩

instance : Inhabited RunnerSettings := ⟨default⟩

structure Fault where
  value : String
  reason : Text.IntegerFault
  deriving DecidableEq, Repr

def Fault.message (f : Fault) : String :=
  s!"invalid WORKER_CONCURRENCY '{f.value}': {f.reason.message}"

/-- The settings that variables make. The number of tasks is read as it is set,
blanks included, and zero counts as one. -/
def ofEnvironment (env : Environment) : Except Fault RunnerSettings :=
  match env.text? "WORKER_CONCURRENCY" with
  | none => .ok default
  | some v =>
    match Text.natural Text.maxU64 v with
    | .ok n => .ok { default with maxTasks := max n 1 }
    | .error reason => .error ⟨v, reason⟩

end RunnerSettings

end TaskRelay
