import TaskRelay.Handler.Error
import TaskRelay.Store.Error
import TaskRelay.Span
import TaskRelay.Task

/-!
# Worker errors and lifecycle
-/

set_option autoImplicit false

namespace TaskRelay

inductive WorkerError
  | noTaskInQueue
  | queueHasBeenClosed
  | queueShutdown
  | store (error : StoreError)
  | task (fault : TaskFault)
  | handler (error : HandlerError)
  | timeout (after : Span)
  deriving DecidableEq

def WorkerError.message : WorkerError → String
  | .noTaskInQueue => "no task in queue"
  | .queueHasBeenClosed => "queue has been closed"
  | .queueShutdown => "queue has been shut down"
  | .store e => e.message
  | .task f => f.message
  | .handler e => e.message
  | .timeout d => s!"task timed out after {d.text}"

inductive Lifecycle
  | notStarted
  | running
  | stopping
  | stopped
  deriving DecidableEq, Repr

namespace Lifecycle

def rank : Lifecycle → Nat
  | .notStarted => 0
  | .running => 1
  | .stopping => 2
  | .stopped => 3

def name : Lifecycle → String
  | .notStarted => "NotStarted"
  | .running => "Running"
  | .stopping => "Stopping"
  | .stopped => "Stopped"

def compare (a b : Lifecycle) : Ordering := Ord.compare a.rank b.rank

def isOver (l : Lifecycle) : Bool := 2 ≤ l.rank

end Lifecycle

end TaskRelay
