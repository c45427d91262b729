import TaskRelay.Worker.Basic

/-!
# Publishing tasks

A task is published by appending an entry that carries it to the worker's
stream. Once shutdown has begun nothing is published any more.
-/

set_option autoImplicit false

namespace TaskRelay

inductive Publish
  | fresh (task : Task)
  | adding (task : Task) (a : Addition)

namespace Publish

def queuedNote (k : Worker) (task : Task) (id : String) : Note :=
  .debug "Task queued"
    [("stream", k.settings.stream), ("entry_id", id), ("task_id", task.id.text)]

def step (now : Nat) (k : Worker) (store : Store) :
    Publish → Store × List Note × Progress Publish (Except WorkerError String)
  | .fresh task =>
    if k.lifecycle.isOver then (store, [], .done (.error .queueShutdown))
    else (store, [], .running (.adding task
      (store.beginAdd now k.settings.stream task.encodeFields k.settings.maxLength)))
  | .adding task a =>
    match a.resume now store with
    | (store, .running a) | (store, .waiting a) => (store, [], .waiting (.adding task a))
    | (store, .done (.ok id)) => (store, [queuedNote k task id], .done (.ok id))
    | (store, .done (.error e)) => (store, [], .done (.error (.store e)))

def woken (now : Nat) : Publish → Bool
  | .adding _ a => a.woken now
  | .fresh _ => true

def deadline? : Publish → Option Nat
  | .adding _ a => some a.due
  | .fresh _ => none

end Publish

end TaskRelay
