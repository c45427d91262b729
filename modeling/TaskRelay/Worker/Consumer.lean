import TaskRelay.Handoff.Basic
import TaskRelay.Journal
import TaskRelay.Settings.Stream
import TaskRelay.Store.Call

/-!
# The consumer loop

The background work of a worker. It reads entries for its group, offers them one
by one to whoever requests a task, and acknowledges an entry only after a
requester has taken it. Told to stop, it takes the entry on offer back and adds
it again together with the rest of its batch, each as a new entry; the old ones
stay pending. A failed read is followed by a pause of a second.
-/

set_option autoImplicit false

namespace TaskRelay

structure StoreView where
  batch : Nat
  readsPanic : Bool
  deriving DecidableEq, Repr

inductive Consumer
  | spawned
  | top
  | reading (r : GroupRead)
  | pausing (deadline : Nat)
  | holding (batch : List Entry)
  | offering (o : Offer) (id : String) (rest : List Entry)
  | acking (id : String) (rest : List Entry)
  | requeueing (batch : List Entry)
  | adding (a : Addition) (id : String) (rest : List Entry)
  deriving DecidableEq, Repr

inductive LoopEnd
  | finished
  | panicked
  deriving DecidableEq, Repr

structure ConsumerStep where
  store : Store
  handoff : Handoff Entry
  notes : List Note
  progress : Progress Consumer LoopEnd

namespace Consumer

def readErrorBackoff : Nat := 1000

variable (cfg : StreamSettings)

def exit (store : Store) (handoff : Handoff Entry) : ConsumerStep :=
  ⟨store, handoff, [.info "Consumer loop stopped" [("stream", cfg.stream)]], .done .finished⟩

def afterRead (now : Nat) (store : Store) (handoff : Handoff Entry) :
    Progress GroupRead ReadResult → ConsumerStep
  | .running r | .waiting r => ⟨store, handoff, [], .waiting (.reading r)⟩
  | .done (.ok []) =>
    ⟨store, handoff, [.debug "No new entries" [("stream", cfg.stream)]], .running .top⟩
  | .done (.ok es) => ⟨store, handoff, [], .running (.holding es)⟩
  | .done (.error e) =>
    ⟨store, handoff,
      [.error "Failed to read from stream" [("stream", cfg.stream), ("error", e.message)]],
      .running (.pausing (now + readErrorBackoff))⟩

def afterOffer (store : Store) (handoff : Handoff Entry) (id : String) (rest : List Entry) :
    Progress Offer (Offered Entry) → ConsumerStep
  | .running o | .waiting o => ⟨store, handoff, [], .waiting (.offering o id rest)⟩
  | .done .accepted => ⟨store, handoff, [], .running (.acking id rest)⟩
  | .done (.stopped e) => ⟨store, handoff, [], .running (.requeueing (e :: rest))⟩

def ackNotes (id : String) : Except StoreError Unit → List Note
  | .ok () => []
  | .error e => [.error "Failed to acknowledge entry"
      [("stream", cfg.stream), ("group", cfg.group), ("entry_id", id), ("error", e.message)]]

def requeueNote (id : String) : AddResult → Note
  | .ok newId => .info "Requeued undelivered entry"
      [("stream", cfg.stream), ("entry_id", id), ("new_entry_id", newId)]
  | .error e => .error "Failed to requeue entry"
      [("stream", cfg.stream), ("entry_id", id), ("error", e.message)]

def step (view : StoreView) (now : Nat) (stopped : Bool) (store : Store)
    (handoff : Handoff Entry) : Consumer → ConsumerStep
  | .spawned =>
    ⟨store, handoff,
      [.info "Consumer loop started"
        [("stream", cfg.stream), ("group", cfg.group), ("consumer", cfg.consumer)]],
      .running .top⟩
  | .top =>
    if stopped then exit cfg store handoff
    else if view.readsPanic then ⟨store, handoff, [], .done .panicked⟩
    else
      let (store, p) := store.beginRead now cfg.stream cfg.group cfg.consumer
        (max 1 view.batch) cfg.blockTime.timerMillis
      afterRead cfg now store handoff p
  | .reading r =>
    if stopped then exit cfg store handoff
    else
      let (store, p) := r.resume now store
      afterRead cfg now store handoff p
  | .pausing d =>
    if stopped then exit cfg store handoff
    else if d ≤ now then ⟨store, handoff, [], .running .top⟩
    else ⟨store, handoff, [], .waiting (.pausing d)⟩
  | .holding [] => ⟨store, handoff, [], .running .top⟩
  | .holding (e :: rest) =>
    let (handoff, p) := handoff.beginOffer e stopped
    afterOffer store handoff e.id rest p
  | .offering o id rest =>
    let (handoff, p) := o.resume handoff stopped
    afterOffer store handoff id rest p
  | .acking id rest =>
    let (store, r) := store.ack cfg.stream cfg.group id
    ⟨store, handoff, ackNotes cfg id r, .running (.holding rest)⟩
  | .requeueing [] => exit cfg store handoff
  | .requeueing (e :: rest) =>
    ⟨store, handoff, [],
      .running (.adding (store.beginAdd now cfg.stream e.fields cfg.maxLength) e.id rest)⟩
  | .adding a id rest =>
    match a.resume now store with
    | (store, .running a) | (store, .waiting a) =>
      ⟨store, handoff, [], .waiting (.adding a id rest)⟩
    | (store, .done r) => ⟨store, handoff, [requeueNote cfg id r], .running (.requeueing rest)⟩

def woken (now : Nat) (stopped : Bool) (store : Store) (handoff : Handoff Entry) :
    Consumer → Bool
  | .reading r => stopped || r.woken now store
  | .pausing d => stopped || d ≤ now
  | .offering o _ _ => o.woken handoff stopped
  | .adding a _ _ => a.woken now
  | _ => true

def deadline? : Consumer → Option Nat
  | .reading r => some r.deadline
  | .pausing d => some d
  | .adding a _ _ => some a.due
  | _ => none

end Consumer

end TaskRelay
