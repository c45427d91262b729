import TaskRelay.Cancellation
import TaskRelay.Handler.Script
import TaskRelay.Worker.Consumer
import TaskRelay.Worker.Error

/-!
# Workers

A worker has a handoff, at most one consumer loop, and a lifecycle. The loop is
spawned by the first request at the latest, once, and never after a shutdown has
begun.
-/

set_option autoImplicit false

namespace TaskRelay

inductive LoopState
  | absent
  | active (c : Consumer)
  | finished
  | panicked
  | aborted
  deriving DecidableEq, Repr

def LoopState.isActive : LoopState → Bool
  | .active _ => true
  | _ => false

structure Worker where
  settings : StreamSettings
  handler : Handler
  handoff : Handoff Entry
  stop : Token
  lifecycle : Lifecycle
  consumer : LoopState
  held : Bool

namespace Worker

def create (settings : StreamSettings) (handler : Handler) (stop : Token) : Worker :=
  ⟨settings, handler, .empty, stop, .notStarted, .absent, true⟩

def createdNote (settings : StreamSettings) (handler : Handler) : Note :=
  .info "Stream worker created"
    [("stream", settings.stream), ("group", settings.group), ("consumer", settings.consumer),
      ("handler", handler.name)]

def spawn (k : Worker) : Worker :=
  match k.lifecycle with
  | .notStarted => { k with lifecycle := .running, consumer := .active .spawned }
  | _ => k

def taskOf (k : Worker) (e : Entry) : List Note × Task :=
  match Task.decodeFields e.fields with
  | .ok t => ([], t)
  | .error f =>
    ([.warn "Failed to decode task, returning empty task"
      [("stream", k.settings.stream), ("entry_id", e.id), ("error", f.message)]], Task.empty)

end Worker

end TaskRelay
