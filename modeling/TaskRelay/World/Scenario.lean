import TaskRelay.World.Schedule

/-!
# Scenarios

A scenario is a list of commands given to one world, each after everything that
the one before set going has come to rest. Workers, tokens, handoffs and
background calls go by name.
-/

set_option autoImplicit false

namespace TaskRelay

inductive Feed
  | worker (name : String)
  | supplies (next : List Supply)

inductive Command
  | createGroup (stream group : String)
  | ack (stream group id : String)
  | ping
  | close
  | claim (stream group consumer : String) (ids : List String)
  | setAddDelay (millis : Nat)
  | failNextReads (n : Nat)
  | failNextAcks (n : Nat)
  | state (stream group : String)
  | create (worker : String) (settings : StreamSettings) (handler : Handler)
  | spawn (worker : String)
  | lifecycle (worker : String)
  | drop (worker : String)
  | cancel (token : String)
  | isCancelled (token : String)
  | closeHandoff (handoff : String)
  | isClosed (handoff : String)
  | limits (limit : Limit)
  | events
  | peek (name : String)

inductive Errand
  | add (stream : String) (fields : Fields) (maxLen : Nat)
  | readGroup (stream group consumer : String) (count block : Nat)
  | publish (worker : String) (task : Task)
  | request (worker : String)
  | run (worker : String) (task : Task) (token : Option String)
  | shutdown (worker : String)
  | offer (handoff item stop : String)
  | take (handoff : String) (wait : Nat)
  | enforce (limit : Limit) (task : Task) (token : Option String)
  | drive (feed : Feed) (settings : RunnerSettings) (token : String)
  | sleep (millis : Nat)

inductive Reply
  | ok
  | nothing
  | dropped
  | absent
  | panicked
  | storeError (e : StoreError)
  | workerError (e : WorkerError)
  | text (s : String)
  | flag (b : Bool)
  | entries (es : List Entry)
  | state (closed : Bool) (entries : List Entry) (pending : Table Nat Pending)
  | settings (s : StreamSettings)
  | lifecycle (l : Lifecycle)
  | task (t : Task)
  | offered (r : Offered String)
  | taken (r : Taken String)
  | limits (l : Limit)
  | executed (l : Limit) (r : ExecutionEnd) (cancelled : Bool)
  | dispatched (n : Nat)
  | events (es : List (Nat × Uuid × String))

inductive Background
  | call (id : Nat) (errand : Errand)
  | answered (time : Nat) (r : Reply)

structure Scenario where
  schedule : Schedule
  workers : Table String Nat
  tokens : Table String Token
  handoffs : Table String Nat
  background : Table String Background

namespace Scenario

def start (view : StoreView) : Scenario := ⟨.start view, [], [], [], []⟩

def patience : Nat := 1000000000

def world (s : Scenario) : World := s.schedule.world

def change (s : Scenario) (f : World → World) : Scenario :=
  { s with schedule := s.schedule.change f }

def token (s : Scenario) (name : String) : Scenario × Token :=
  match Table.get? name s.tokens with
  | some t => (s, t)
  | none =>
    let (tokens, t) := s.world.tokens.fresh
    ({ s.change ({ · with tokens := tokens }) with tokens := Table.insert name t s.tokens }, t)

def tokenOr (s : Scenario) : Option String → Scenario × Token
  | some name => s.token name
  | none =>
    let (tokens, t) := s.world.tokens.fresh
    (s.change ({ · with tokens := tokens }), t)

def handoff (s : Scenario) (name : String) : Scenario × Nat :=
  match Table.get? name s.handoffs with
  | some i => (s, i)
  | none =>
    let i := s.world.handoffs.length
    ({ s.change (fun w => { w with handoffs := w.handoffs ++ [.empty] }) with
      handoffs := Table.insert name i s.handoffs }, i)

def worker (s : Scenario) (name : String) : Nat :=
  (Table.get? name s.workers).getD s.world.workers.length

def letGo (s : Scenario) (name : String) : Scenario :=
  match Table.get? name s.workers with
  | some i => { s.change (·.letGo i) with workers := Table.erase name s.workers }
  | none => s

def inOrder (es : List (Nat × Uuid × String)) : List (Nat × Uuid × String) :=
  es.mergeSort fun a b =>
    a.1 < b.1 || (a.1 == b.1 && a.2.1.bits.toNat ≤ b.2.1.bits.toNat)

def setStore (s : Scenario) (f : Store → Store) : Scenario :=
  s.change fun w => { w with store := f w.store }

def storeReply : Except StoreError Unit → Reply
  | .ok () => .ok
  | .error e => .storeError e

def obey (s : Scenario) : Command → Scenario × Reply
  | .createGroup stream group =>
    match s.world.store.createGroup stream group with
    | .ok store => (s.setStore fun _ => store, .ok)
    | .error e => (s, .storeError e)
  | .ack stream group id =>
    let (store, r) := s.world.store.ack stream group id
    (s.setStore fun _ => store, storeReply r)
  | .ping => (s, storeReply s.world.store.ping)
  | .close => (s.setStore Store.close, .ok)
  | .claim stream group consumer ids =>
    let (store, es) := s.world.store.claim stream group consumer ids
    (s.setStore fun _ => store, .entries es)
  | .setAddDelay ms => (s.setStore ({ · with addDelay := ms }), .ok)
  | .failNextReads n => (s.setStore ({ · with failingReads := n }), .ok)
  | .failNextAcks n => (s.setStore ({ · with failingAcks := n }), .ok)
  | .state stream group =>
    let store := s.world.store
    (s, .state store.closed (store.entries stream) (store.pending stream group))
  | .create name settings handler =>
    match s.world.createWorker settings handler with
    | .error e => (s, .workerError e)
    | .ok (w, i) =>
      let s := (s.change fun _ => w).letGo name
      ({ s with workers := Table.insert name i s.workers }, .settings settings)
  | .spawn name =>
    let i := s.worker name
    (s.change fun w =>
      match w.workers[i]? with
      | some k => w.setWorker i k.spawn
      | none => w, .ok)
  | .lifecycle name =>
    match s.world.workers[s.worker name]? with
    | some k => (s, .lifecycle k.lifecycle)
    | none => (s, .absent)
  | .drop name =>
    match Table.get? name s.workers with
    | some _ => (s.letGo name, .dropped)
    | none => (s, .absent)
  | .cancel name =>
    let (s, t) := s.token name
    (s.change (·.cancel t), .ok)
  | .isCancelled name =>
    let (s, t) := s.token name
    (s, .flag (s.world.isCancelled t))
  | .closeHandoff name =>
    let (s, i) := s.handoff name
    (s.change fun w =>
      match w.handoffs[i]? with
      | some h => w.setHandoff i h.close
      | none => w, .ok)
  | .isClosed name =>
    let (s, i) := s.handoff name
    (s, .flag (match s.world.handoffs[i]? with
      | some h => h.closed
      | none => false))
  | .limits l => (s, .limits l)
  | .events =>
    (s.change ({ · with handled := [] }), .events (inOrder s.world.handled))
  | .peek name =>
    (s, .flag (match Table.get? name s.background with
      | some (.call id _) => (s.world.ended? id).isSome
      | some (.answered _ _) => true
      | none => true))

def callOf (s : Scenario) : Errand → Scenario × Call
  | .add stream fields maxLen =>
    (s, .adding (s.world.store.beginAdd s.world.now stream fields maxLen))
  | .readGroup stream group consumer count block => (s, .read stream group consumer count block)
  | .publish name task => (s, .publishing (s.worker name) (.fresh task))
  | .request name => (s, .requesting (s.worker name) .fresh)
  | .run name task t =>
    let (s, t) := s.tokenOr t
    (s, .running (s.worker name) (.fresh t task))
  | .shutdown name => (s, .shutting (s.worker name) .fresh)
  | .offer name item stop =>
    let (s, i) := s.handoff name
    let (s, t) := s.token stop
    (s, .offer i item t)
  | .take name wait =>
    let (s, i) := s.handoff name
    (s, .take i wait)
  | .enforce limit task t =>
    let (s, t) := s.tokenOr t
    (s, .executing (.start limit s.world.now t (.scripted "script") task))
  | .drive feed settings name =>
    let (tokens, t) := s.world.tokens.fresh
    let s := { s.change ({ · with tokens := tokens }) with
      tokens := Table.insert name t s.tokens }
    let source := match feed with
      | .worker name => Source.worker (s.worker name)
      | .supplies next => Source.supplies next
    (s, .driving ⟨source, settings, t, 0, .fresh⟩)
  | .sleep ms => (s, .sleeping (s.world.now + ms))

def replyOf : Errand → Outcome → Reply
  | _, .added (.ok id) => .text id
  | _, .added (.error e) => .storeError e
  | _, .read (.ok es) => .entries es
  | _, .read (.error e) => .storeError e
  | _, .published (.ok id) => .text id
  | _, .published (.error e) => .workerError e
  | _, .requested (.ok e) => .task ((Task.decodeFields e.fields).toOption.getD Task.empty)
  | _, .requested (.error e) => .workerError e
  | _, .shutDown (.ok ()) => .ok
  | _, .shutDown (.error e) => .workerError e
  | _, .ran (.ok ()) => .ok
  | _, .ran (.error e) => .workerError e
  | .enforce _ _ _, .executed .panicked _ => .panicked
  | .enforce limit _ _, .executed r cancelled => .executed limit r cancelled
  | _, .executed _ _ => .nothing
  | _, .offered r => .offered r
  | _, .taken r => .taken r
  | _, .drove n => .dispatched n
  | _, .slept => .nothing
  | _, .panicked => .panicked

def settle (s : Scenario) : Scenario := { s with schedule := s.schedule.settle patience }

def await (s : Scenario) (id : Nat) : Scenario × Option Ended :=
  let s := { s with schedule := s.schedule.await id patience }
  (s, s.world.ended? id)

def perform (s : Scenario) (e : Errand) : Scenario × Reply :=
  let (s, c) := s.callOf e
  let (schedule, id) := s.schedule.begin c
  match { s with schedule := schedule }.await id with
  | (s, some ended) => (s, replyOf e ended.outcome)
  | (s, none) => (s, .nothing)

def launch (s : Scenario) (name : String) (e : Errand) : Scenario :=
  let (s, c) := s.callOf e
  let (schedule, id) := s.schedule.begin c
  { s with
    schedule := schedule
    background := Table.insert name (.call id e) s.background }

def launchCommand (s : Scenario) (name : String) (c : Command) : Scenario :=
  let (s, r) := s.obey c
  { s with background := Table.insert name (.answered s.world.now r) s.background }

def join (s : Scenario) (name : String) : Scenario × Option (Nat × Reply) :=
  let forget (s : Scenario) := { s with background := Table.erase name s.background }
  match Table.get? name s.background with
  | none => (s, none)
  | some (.answered t r) => (forget s, some (t, r))
  | some (.call id e) =>
    match s.await id with
    | (s, some ended) => (forget s, some (ended.time, replyOf e ended.outcome))
    | (s, none) => (forget s, none)

def takeLog (s : Scenario) : Scenario × List LogEvent :=
  (s.change ({ · with journal := [] }), s.world.journal)

end Scenario

end TaskRelay
