import TaskRelay.Journal
import TaskRelay.Progress
import TaskRelay.Span

/-!
# Time limits

Work under a limit has until the limit to end. Then its token is cancelled and
it gets a grace period to wind down, after which it is dropped. Once the limit
has passed the work counts as timed out, whatever it returns later.
-/

set_option autoImplicit false

namespace TaskRelay

structure Limit where
  timeout : Span
  grace : Span
  deriving DecidableEq

namespace Limit

def defaultTimeout : Span := Span.ofSeconds 3600

def gracePeriod : Span := Span.ofSeconds 30

def minTimeout : Span := Span.ofSeconds 1

def maxTimeout : Span := Span.ofSeconds 86400

def ofTimeout (timeout : Span) : Limit := ⟨timeout, gracePeriod⟩

def ofTask (seconds : Option UInt64) : Limit :=
  match seconds with
  | some n => ofTimeout ((Span.ofSeconds n).clamp minTimeout maxTimeout)
  | none => ofTimeout defaultTimeout

end Limit

inductive LimitStage
  | allowed (deadline : Nat)
  | winding (deadline : Nat)
  deriving DecidableEq, Repr

def LimitStage.deadline : LimitStage → Nat
  | .allowed d => d
  | .winding d => d

structure Limited (σ : Type) where
  limit : Limit
  stage : LimitStage
  work : σ

namespace Limited

variable {σ α : Type}

def start (limit : Limit) (now : Nat) (work : σ) : Limited σ :=
  ⟨limit, .allowed (now + limit.timeout.timerMillis), work⟩

inductive Verdict (σ α : Type)
  | continues (next : Limited σ)
  | waits (next : Limited σ)
  | inTime (result : α)
  | cancels (next : Limited σ)
  | late (result : α)
  | dropped (work : σ)

def judge (g : Limited σ) (now : Nat) (p : Progress σ α) : Verdict σ α :=
  match p, g.stage with
  | .running w, _ => .continues { g with work := w }
  | .done a, .allowed _ => .inTime a
  | .done a, .winding _ => .late a
  | .waiting w, .allowed d =>
    if d ≤ now then
      .cancels { g with work := w, stage := .winding (now + g.limit.grace.timerMillis) }
    else .waits { g with work := w }
  | .waiting w, .winding d => if d ≤ now then .dropped w else .waits { g with work := w }

def timeoutNote (task : Uuid) (limit : Limit) : Note :=
  .warn "Task timeout reached, sending cancellation signal"
    [("task_id", task.text), ("timeout_secs", toString limit.timeout.seconds)]

def droppedNote (task : Uuid) : Note :=
  .warn "Grace period expired, abandoning task" [("task_id", task.text)]

end Limited

end TaskRelay
