import TaskRelay.Cancellation
import TaskRelay.Handler.Limit
import TaskRelay.Handler.Script
import TaskRelay.Worker.Error

/-!
# Executions

A task is executed by a handler under the task's limit, with a token of its own
that the limit cancels. The token is derived from the caller's, which the
execution never cancels.
-/

set_option autoImplicit false

namespace TaskRelay

structure Execution where
  task : Uuid
  token : Token
  work : Limited Handling

inductive ExecutionEnd
  | returned (r : Except HandlerError Unit)
  | timedOut
  | panicked

structure ExecutionStep (σ α : Type) where
  tokens : Cancellations
  notes : List Note
  progress : Progress σ α

namespace Execution

def start (limit : Limit) (now : Nat) (token : Token) (handler : Handler) (task : Task) :
    Execution :=
  ⟨task.id, token, .start limit now (.start handler task)⟩

def endInTime : Handled → ExecutionEnd
  | .returned r => .returned r
  | .panicked => .panicked

def endLate : Handled → ExecutionEnd
  | .returned _ => .timedOut
  | .panicked => .panicked

def step (now : Nat) (tokens : Cancellations) (e : Execution) :
    ExecutionStep Execution ExecutionEnd :=
  let (ns, p) := e.work.work.step now (tokens.isCancelled e.token)
  match e.work.judge now p with
  | .continues w => ⟨tokens, ns, .running { e with work := w }⟩
  | .waits w => ⟨tokens, ns, .waiting { e with work := w }⟩
  | .inTime r => ⟨tokens, ns, .done (endInTime r)⟩
  | .late r => ⟨tokens, ns, .done (endLate r)⟩
  | .cancels w =>
    ⟨tokens.cancel e.token, ns ++ [Limited.timeoutNote e.task e.work.limit],
      .running { e with work := w }⟩
  | .dropped h =>
    ⟨tokens, ns ++ Limited.droppedNote e.task :: h.abandon, .done .timedOut⟩

def woken (now : Nat) (tokens : Cancellations) (e : Execution) : Bool :=
  e.work.work.woken now (tokens.isCancelled e.token) || e.work.stage.deadline ≤ now

def deadlines (e : Execution) : List Nat := e.work.stage.deadline :: e.work.work.deadline?.toList

end Execution

inductive Run
  | fresh (token : Token) (task : Task)
  | under (e : Execution)

abbrev RunResult := Option (Except WorkerError Unit)

namespace Run

def runningNote (handler : Handler) (task : Uuid) : Note :=
  .debug "Running task" [("task_id", task.text), ("handler", handler.name)]

def failedNote (task : Uuid) (error : String) : Note :=
  .error "Task failed" [("task_id", task.text), ("error", error)]

def after (e : Execution) (s : ExecutionStep Execution ExecutionEnd) :
    ExecutionStep Run RunResult :=
  match s.progress with
  | .running e => ⟨s.tokens, s.notes, .running (.under e)⟩
  | .waiting e => ⟨s.tokens, s.notes, .waiting (.under e)⟩
  | .done (.returned (.ok ())) => ⟨s.tokens, s.notes, .done (some (.ok ()))⟩
  | .done (.returned (.error x)) =>
    ⟨s.tokens, s.notes ++ [failedNote e.task x.message], .done (some (.error (.handler x)))⟩
  | .done .timedOut =>
    ⟨s.tokens, s.notes, .done (some (.error (.timeout e.work.limit.timeout)))⟩
  | .done .panicked => ⟨s.tokens, s.notes, .done none⟩

def step (now : Nat) (tokens : Cancellations) (handler : Handler) :
    Run → ExecutionStep Run RunResult
  | .fresh token task =>
    let (tokens, own) := tokens.child token
    ⟨tokens, [runningNote handler task.id],
      .running (.under (.start (.ofTask task.timeoutSeconds) now own handler task))⟩
  | .under e => after e (e.step now tokens)

def woken (now : Nat) (tokens : Cancellations) : Run → Bool
  | .fresh _ _ => true
  | .under e => e.woken now tokens

def deadlines : Run → List Nat
  | .fresh _ _ => []
  | .under e => e.deadlines

end Run

end TaskRelay
