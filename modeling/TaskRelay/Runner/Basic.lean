import TaskRelay.Settings.Runner
import TaskRelay.Worker.Execution
import TaskRelay.Worker.Request

/-!
# Runners

A runner requests tasks and runs them, no more at a time than it has permits. It
stops when its token is cancelled or the queue is closed, and then waits for the
runs in flight, up to a bound.
-/

set_option autoImplicit false

namespace TaskRelay

structure Supply where
  answer : Except WorkerError Task
  after : Nat

inductive Source
  | worker (w : Nat)
  | supplies (next : List Supply)

inductive Asking
  | fresh
  | worker (r : Request)
  | supply (answer : Except WorkerError Task) (due : Nat)

inductive RunnerStage
  | fresh
  | acquiring
  | asking (a : Asking)
  | pausing (deadline : Nat)
  | winding
  | draining (deadline : Nat)

structure Runner where
  source : Source
  settings : RunnerSettings
  shutdown : Token
  dispatched : Nat
  stage : RunnerStage

namespace Runner

def maxPermits : Nat := 0x1FFFFFFFFFFFFFFF

def capacity (r : Runner) : Nat := max r.settings.maxTasks 1

/-- How many permits have to be free for the drain to end: their number is
counted in 32 bits. -/
def drainGoal (r : Runner) : Nat := r.capacity % 0x100000000

def closedSupply : Supply := ⟨.error .queueHasBeenClosed, 3⟩

def startingNote (r : Runner) : Note :=
  .info "Runner starting" [("max_concurrent_tasks", toString r.settings.maxTasks)]

def closedNote : Note := .info "Queue closed, runner stopping" []

def requestFailedNote (e : WorkerError) : Note :=
  .error "Failed to request task" [("error", e.message)]

def activeNote (count : Nat) : Note :=
  .info "Waiting for active tasks to complete" [("count", toString count)]

def forcedNote (count : Nat) : Note :=
  .warn "Force shutdown with tasks still running" [("count", toString count)]

def shutDownNote (r : Runner) : Note :=
  .info "Runner shut down" [("tasks", toString r.dispatched)]

def succeededNote (task : Uuid) : Note := .info "Task succeeded" [("task_id", task.text)]

def endNotes (task : Uuid) : RunResult → List Note
  | some (.ok ()) => [succeededNote task]
  | some (.error e) => [Run.failedNote task e.message]
  | none => []

inductive Asked
  | task (t : Task)
  | retry
  | closed
  | failed (e : WorkerError)

def Asked.of : Except WorkerError Task → Asked
  | .ok t => .task t
  | .error .noTaskInQueue => .retry
  | .error .queueHasBeenClosed => .closed
  | .error e => .failed e

end Runner

end TaskRelay
