import TaskRelay.Worker.Basic

/-!
# Shutdown

Only the first shutdown of a worker does anything. It tells the consumer loop to
stop, waits a moment for it and aborts it if it takes longer, and then closes
the store and the handoff.
-/

set_option autoImplicit false

namespace TaskRelay

inductive Shutdown
  | fresh
  | joining (deadline : Nat)
  | closing
  deriving DecidableEq, Repr

structure ShutdownStep where
  tokens : Cancellations
  store : Store
  worker : Worker
  notes : List Note
  progress : Progress Shutdown (Except WorkerError Unit)

namespace Shutdown

/-- How long shutdown waits for the consumer loop, in milliseconds. -/
def grace : Nat := 200

def finishedNote : Note := .debug "Consumer loop finished" []

def failedNote (panicked : Bool) : Note :=
  .error "Consumer loop terminated abnormally"
    [("error", if panicked then "panic" else "cancelled"), ("panicked", toString panicked)]

def abortNote : Note :=
  .warn "Consumer loop did not finish in time, aborting" [("grace_ms", toString grace)]

def step (now : Nat) (tokens : Cancellations) (store : Store) (k : Worker) :
    Shutdown → ShutdownStep
  | .fresh =>
    if k.lifecycle.isOver then ⟨tokens, store, k, [], .done (.error .queueShutdown)⟩
    else ⟨tokens.cancel k.stop, store, { k with lifecycle := .stopping },
      [.info "Shutting down worker" [("stream", k.settings.stream)]],
      .running (if k.consumer = .absent then .closing else .joining (now + grace))⟩
  | .joining d =>
    match k.consumer with
    | .absent => ⟨tokens, store, k, [], .running .closing⟩
    | .finished => ⟨tokens, store, k, [finishedNote], .running .closing⟩
    | .panicked => ⟨tokens, store, k, [failedNote true], .running .closing⟩
    | .aborted => ⟨tokens, store, k, [failedNote false], .running .closing⟩
    | .active _ =>
      if d ≤ now then
        ⟨tokens, store, { k with consumer := .aborted }, [abortNote], .running .closing⟩
      else ⟨tokens, store, k, [], .waiting (.joining d)⟩
  | .closing =>
    ⟨tokens, store.close,
      { k with handoff := k.handoff.close, lifecycle := .stopped },
      [.info "Worker shut down" [("stream", k.settings.stream)]], .done (.ok ())⟩

def woken (now : Nat) (k : Worker) : Shutdown → Bool
  | .joining d => !k.consumer.isActive || d ≤ now
  | _ => true

def deadline? : Shutdown → Option Nat
  | .joining d => some d
  | _ => none

end Shutdown

end TaskRelay
