import TaskRelay.Worker.Basic

/-!
# Requests

A request waits for an entry in five attempts of a second each. It ends with the
entry that it took from the handoff, with an empty queue after the last attempt,
or at once when the handoff is closed.
-/

set_option autoImplicit false

namespace TaskRelay

inductive Request
  | fresh
  | between (n : Nat)
  | taking (n : Nat) (t : Take)
  deriving DecidableEq, Repr

namespace Request

/-- How long an attempt waits, in milliseconds. -/
def pollInterval : Nat := 1000

def maxAttempts : Nat := 5

def missNote (attempt : Nat) : Note :=
  .trace "No entry handed off yet" [("attempt", toString attempt)]

def afterTake (k : Worker) (n : Nat) (h : Handoff Entry) :
    Progress Take (Taken Entry) →
      Worker × List Note × Progress Request (Except WorkerError Entry)
  | .running t | .waiting t => ({ k with handoff := h }, [], .waiting (.taking n t))
  | .done (.item e) => ({ k with handoff := h }, [], .done (.ok e))
  | .done .closed => ({ k with handoff := h }, [], .done (.error .queueHasBeenClosed))
  | .done .timedOut => ({ k with handoff := h }, [missNote (n + 1)], .running (.between (n + 1)))

def step (now : Nat) (k : Worker) :
    Request → Worker × List Note × Progress Request (Except WorkerError Entry)
  | .fresh => (k.spawn, [], .running (.between 0))
  | .between n =>
    if n < maxAttempts then
      let (h, p) := k.handoff.beginTake now pollInterval
      afterTake k n h p
    else (k, [], .done (.error .noTaskInQueue))
  | .taking n t =>
    let (h, p) := t.resume k.handoff now
    afterTake k n h p

def abandon (k : Worker) : Request → Worker
  | .taking _ t => { k with handoff := t.abandon k.handoff }
  | _ => k

def woken (now : Nat) (k : Worker) : Request → Bool
  | .taking _ t => t.woken k.handoff now
  | _ => true

def deadline? : Request → Option Nat
  | .taking _ t => some t.deadline
  | _ => none

end Request

end TaskRelay
