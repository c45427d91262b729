import TaskRelay.Runner.Basic
import TaskRelay.Worker.Publish
import TaskRelay.Worker.Shutdown

/-!
# The world

Workers that share one store, the tokens that stop them, and the calls under way
on them, at one moment of a clock that counts milliseconds. A call that has
ended stays on record with its outcome, in the order in which calls ended.
-/

set_option autoImplicit false

namespace TaskRelay

inductive Call
  | adding (a : Addition)
  | read (stream group consumer : String) (count block : Nat)
  | reading (r : GroupRead)
  | publishing (w : Nat) (p : Publish)
  | requesting (w : Nat) (r : Request)
  | shutting (w : Nat) (s : Shutdown)
  | running (w : Nat) (r : Run)
  | dispatched (owner w : Nat) (task : Uuid) (r : Run)
  | loose (owner : Nat) (token : Token) (h : Handling)
  | executing (e : Execution)
  | offer (h : Nat) (item : String) (stop : Token)
  | offering (h : Nat) (stop : Token) (o : Offer)
  | take (h wait : Nat)
  | taking (h : Nat) (t : Take)
  | driving (r : Runner)
  | sleeping (deadline : Nat)

inductive Outcome
  | added (r : AddResult)
  | read (r : ReadResult)
  | published (r : Except WorkerError String)
  | requested (r : Except WorkerError Entry)
  | shutDown (r : Except WorkerError Unit)
  | ran (r : Except WorkerError Unit)
  | executed (r : ExecutionEnd) (cancelled : Bool)
  | offered (r : Offered String)
  | taken (r : Taken String)
  | drove (dispatched : Nat)
  | slept
  | panicked

structure Ended where
  call : Nat
  time : Nat
  outcome : Outcome

structure World where
  now : Nat
  tokens : Cancellations
  store : Store
  view : StoreView
  workers : List Worker
  handoffs : List (Handoff String)
  nextCall : Nat
  calls : Table Nat Call
  permits : Table Nat Nat
  ended : List Ended
  journal : List LogEvent
  handled : List (Nat × Uuid × String)

def Call.worker? : Call → Option Nat
  | .publishing w _ | .requesting w _ | .shutting w _ | .running w _ => some w
  | .dispatched _ w _ _ => some w
  | .driving r =>
    match r.source with
    | .worker w => some w
    | .supplies _ => none
  | _ => none

namespace World

def start (view : StoreView) : World :=
  ⟨0, .start, .empty, view, [], [], 0, [], [], [], [], []⟩

def isCancelled (w : World) (t : Token) : Bool := w.tokens.isCancelled t

def cancel (w : World) (t : Token) : World := { w with tokens := w.tokens.cancel t }

def note (w : World) : Note → World
  | .log e => { w with journal := w.journal ++ [e] }
  | .handled task what => { w with handled := w.handled ++ [(w.now, task, what)] }

def notes (w : World) (ns : List Note) : World := ns.foldl note w

def begin (w : World) (c : Call) : World × Nat :=
  ({ w with nextCall := w.nextCall + 1, calls := Table.insert w.nextCall c w.calls }, w.nextCall)

def setCall (w : World) (id : Nat) (c : Call) : World :=
  { w with calls := Table.insert id c w.calls }

def setWorker (w : World) (i : Nat) (k : Worker) : World :=
  { w with workers := w.workers.set i k }

def setHandoff (w : World) (i : Nat) (h : Handoff String) : World :=
  { w with handoffs := w.handoffs.set i h }

def ended? (w : World) (id : Nat) : Option Ended := w.ended.find? (·.call == id)

def free (w : World) (owner : Nat) : Nat := (Table.get? owner w.permits).getD 0

def setFree (w : World) (owner n : Nat) : World :=
  { w with permits := Table.insert owner n w.permits }

def release (w : World) (owner : Nat) : World := w.setFree owner (w.free owner + 1)

def inUse (w : World) (i : Nat) : Bool := w.calls.any fun p => p.2.worker? == some i

def sweep (w : World) : World :=
  { w with workers := w.workers.mapIdx fun i k =>
      if k.held || w.inUse i || !k.consumer.isActive then k else { k with consumer := .aborted } }

def finish (w : World) (id : Nat) (o : Outcome) : World :=
  sweep { w with
    calls := Table.erase id w.calls
    ended := w.ended ++ [⟨id, w.now, o⟩] }

def letGo (w : World) (i : Nat) : World :=
  match w.workers[i]? with
  | some k => (w.setWorker i { k with held := false }).sweep
  | none => w

def createWorker (w : World) (settings : StreamSettings) (handler : Handler) :
    Except WorkerError (World × Nat) :=
  match w.store.createGroup settings.stream settings.group with
  | .error e => .error (.store e)
  | .ok store =>
    let (tokens, stop) := w.tokens.fresh
    let w := w.note (Worker.createdNote settings handler)
    .ok ({ w with
      store := store
      tokens := tokens
      workers := w.workers ++ [Worker.create settings handler stop] }, w.workers.length)

end World

end TaskRelay
