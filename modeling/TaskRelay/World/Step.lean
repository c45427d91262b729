import TaskRelay.World.Basic

/-!
# Steps of the world

One step lets one call or one consumer loop do one uninterrupted action. A step
of somebody who waits and was not woken changes nothing.
-/

set_option autoImplicit false

namespace TaskRelay

inductive Agent
  | call (id : Nat)
  | loop (worker : Nat)
  deriving DecidableEq, Repr

namespace World

def ask (w : World) (r : Runner) :
    Asking → World × Progress (Runner × Asking) (Runner × Except WorkerError Task)
  | .fresh =>
    match r.source with
    | .worker _ => (w, .running (r, .worker .fresh))
    | .supplies (s :: rest) =>
      (w, .running ({ r with source := .supplies rest }, .supply s.answer (w.now + s.after)))
    | .supplies [] =>
      let s := Runner.closedSupply
      (w, .running (r, .supply s.answer (w.now + s.after)))
  | .worker q =>
    match r.source with
    | .supplies _ => (w, .done (r, .error .queueHasBeenClosed))
    | .worker i =>
      match w.workers[i]? with
      | none => (w, .done (r, .error .queueHasBeenClosed))
      | some k =>
        let (k, ns, p) := q.step w.now k
        let w := (w.setWorker i k).notes ns
        match p with
        | .running q => (w, .running (r, .worker q))
        | .waiting q => (w, .waiting (r, .worker q))
        | .done (.error e) => (w, .done (r, .error e))
        | .done (.ok e) =>
          let (ns, task) := k.taskOf e
          (w.notes ns, .done (r, .ok task))
  | .supply answer due =>
    if due ≤ w.now then (w, .done (r, answer)) else (w, .waiting (r, .supply answer due))

def dropAsking (w : World) (r : Runner) : Asking → World
  | .worker q =>
    match r.source with
    | .worker i =>
      match w.workers[i]? with
      | some k => w.setWorker i (q.abandon k)
      | none => w
    | .supplies _ => w
  | _ => w

def dispatch (w : World) (owner : Nat) (r : Runner) (task : Task) : World :=
  let (tokens, token) := w.tokens.child r.shutdown
  let w := { w with tokens := tokens }
  match r.source with
  | .worker i => (w.begin (.dispatched owner i task.id (.fresh token task))).1
  | .supplies _ => (w.begin (.loose owner token (.start (.scripted "script") task))).1

def drives (w : World) (r : Runner) (stage : RunnerStage) : World × Progress Runner Outcome :=
  (w, .running { r with stage := stage })

def endRunner (w : World) (r : Runner) : World × Progress Runner Outcome :=
  (w.note r.shutDownNote, .done (.drove r.dispatched))

def stepRunner (w : World) (owner : Nat) (r : Runner) : World × Progress Runner Outcome :=
  match r.stage with
  | .fresh =>
    let w := w.note r.startingNote
    if Runner.maxPermits < r.capacity then (w, .done .panicked)
    else (w.setFree owner r.capacity).drives r .acquiring
  | .acquiring =>
    if w.isCancelled r.shutdown then w.drives r .winding
    else if 0 < w.free owner then (w.setFree owner (w.free owner - 1)).drives r (.asking .fresh)
    else (w, .waiting r)
  | .asking a =>
    if w.isCancelled r.shutdown then ((w.dropAsking r a).release owner).drives r .winding
    else
      match w.ask r a with
      | (w, .running (r, a)) => w.drives r (.asking a)
      | (w, .waiting (r, a)) => (w, .waiting { r with stage := .asking a })
      | (w, .done (r, answer)) =>
        match Runner.Asked.of answer with
        | .task t =>
          (w.dispatch owner r t).drives { r with dispatched := r.dispatched + 1 } .acquiring
        | .retry => (w.release owner).drives r .acquiring
        | .closed => ((w.note Runner.closedNote).release owner).drives r .winding
        | .failed e =>
          (w.note (Runner.requestFailedNote e)).drives r (.pausing (w.now + r.settings.backoff))
  | .pausing d =>
    if d ≤ w.now then (w.release owner).drives r .acquiring else (w, .waiting r)
  | .winding =>
    let active := r.capacity - w.free owner
    if 0 < active then
      ((w.note (Runner.activeNote active)).cancel r.shutdown).drives r
        (.draining (w.now + r.settings.drain))
    else w.endRunner r
  | .draining d =>
    if r.drainGoal ≤ w.free owner then w.endRunner r
    else if d ≤ w.now then
      (w.note (Runner.forcedNote (r.capacity - w.free owner))).endRunner r
    else (w, .waiting r)

def stepRun (w : World) (i : Nat) (r : Run) : World × Progress Run RunResult :=
  match w.workers[i]? with
  | none => (w, .done none)
  | some k =>
    let s := r.step w.now w.tokens k.handler
    ({ w with tokens := s.tokens }.notes s.notes, s.progress)

def runOutcome : RunResult → Outcome
  | some r => .ran r
  | none => .panicked

def stepCall (w : World) (id : Nat) : Call → World × Progress Call Outcome
  | .adding a =>
    let (store, p) := a.resume w.now w.store
    ({ w with store := store }, p.within .adding .added)
  | .read stream group consumer count block =>
    let (store, p) := w.store.beginRead w.now stream group consumer count block
    ({ w with store := store }, p.within .reading .read)
  | .reading r =>
    let (store, p) := r.resume w.now w.store
    ({ w with store := store }, p.within .reading .read)
  | .publishing i p =>
    match w.workers[i]? with
    | none => (w, .done .panicked)
    | some k =>
      let (store, ns, p) := p.step w.now k w.store
      ({ w with store := store }.notes ns, p.within (.publishing i) .published)
  | .requesting i r =>
    match w.workers[i]? with
    | none => (w, .done .panicked)
    | some k =>
      let (k, ns, p) := r.step w.now k
      let w := (w.setWorker i k).notes ns
      match p with
      | .running r => (w, .running (.requesting i r))
      | .waiting r => (w, .waiting (.requesting i r))
      | .done (.ok e) => (w.notes (k.taskOf e).1, .done (.requested (.ok e)))
      | .done (.error e) => (w, .done (.requested (.error e)))
  | .shutting i s =>
    match w.workers[i]? with
    | none => (w, .done .panicked)
    | some k =>
      let s := s.step w.now w.tokens w.store k
      (({ w with tokens := s.tokens, store := s.store }.setWorker i s.worker).notes s.notes,
        s.progress.within (.shutting i) .shutDown)
  | .running i r =>
    let (w, p) := w.stepRun i r
    (w, p.within (.running i) runOutcome)
  | .dispatched owner i task r =>
    match w.stepRun i r with
    | (w, .done res) => ((w.notes (Runner.endNotes task res)).release owner, .done (runOutcome res))
    | (w, p) => (w, p.within (.dispatched owner i task) runOutcome)
  | .loose owner token h =>
    match h.step w.now (w.isCancelled token) with
    | (ns, .running h) => (w.notes ns, .running (.loose owner token h))
    | (ns, .waiting h) => (w.notes ns, .waiting (.loose owner token h))
    | (ns, .done (.returned r)) =>
      let res := r.mapError WorkerError.handler
      (((w.notes ns).notes (Runner.endNotes h.task (some res))).release owner, .done (.ran res))
    | (ns, .done .panicked) => ((w.notes ns).release owner, .done .panicked)
  | .executing e =>
    let s := e.step w.now w.tokens
    ({ w with tokens := s.tokens }.notes s.notes,
      s.progress.within .executing fun r => .executed r (s.tokens.isCancelled e.token))
  | .offer i item stop =>
    match w.handoffs[i]? with
    | none => (w, .done .panicked)
    | some h =>
      let (h, p) := h.beginOffer item (w.isCancelled stop)
      (w.setHandoff i h, p.within (.offering i stop) .offered)
  | .offering i stop o =>
    match w.handoffs[i]? with
    | none => (w, .done .panicked)
    | some h =>
      let (h, p) := o.resume h (w.isCancelled stop)
      (w.setHandoff i h, p.within (.offering i stop) .offered)
  | .take i wait =>
    match w.handoffs[i]? with
    | none => (w, .done .panicked)
    | some h =>
      let (h, p) := h.beginTake w.now wait
      (w.setHandoff i h, p.within (.taking i) .taken)
  | .taking i t =>
    match w.handoffs[i]? with
    | none => (w, .done .panicked)
    | some h =>
      let (h, p) := t.resume h w.now
      (w.setHandoff i h, p.within (.taking i) .taken)
  | .driving r =>
    let (w, p) := w.stepRunner id r
    (w, p.within .driving fun o => o)
  | .sleeping d => if d ≤ w.now then (w, .done .slept) else (w, .waiting (.sleeping d))

inductive Standing
  | running
  | waiting
  | gone
  deriving DecidableEq, Repr

def stepLoop (w : World) (i : Nat) : World × Standing :=
  match w.workers[i]? with
  | none => (w, .gone)
  | some k =>
    match k.consumer with
    | .active c =>
      let s := c.step k.settings w.view w.now (w.isCancelled k.stop) w.store k.handoff
      let k := { k with handoff := s.handoff }
      let w := { w with store := s.store }.notes s.notes
      match s.progress with
      | .running c => (w.setWorker i { k with consumer := .active c }, .running)
      | .waiting c => (w.setWorker i { k with consumer := .active c }, .waiting)
      | .done .finished => (w.setWorker i { k with consumer := .finished }, .gone)
      | .done .panicked => (w.setWorker i { k with consumer := .panicked }, .gone)
    | _ => (w, .gone)

def step (w : World) : Agent → World × Standing
  | .loop i => w.stepLoop i
  | .call id =>
    match Table.get? id w.calls with
    | none => (w, .gone)
    | some c =>
      match w.stepCall id c with
      | (w, .running c) => (w.setCall id c, .running)
      | (w, .waiting c) => (w.setCall id c, .waiting)
      | (w, .done o) => (w.finish id o, .gone)

def runnerWoken (w : World) (owner : Nat) (r : Runner) : Bool :=
  match r.stage with
  | .acquiring => w.isCancelled r.shutdown || 0 < w.free owner
  | .asking a =>
    w.isCancelled r.shutdown ||
      match a, r.source with
      | .worker q, .worker i =>
        match w.workers[i]? with
        | some k => q.woken w.now k
        | none => true
      | .supply _ due, _ => due ≤ w.now
      | _, _ => true
  | .pausing d => d ≤ w.now
  | .draining d => r.drainGoal ≤ w.free owner || d ≤ w.now
  | _ => true

def callWoken (w : World) (id : Nat) : Call → Bool
  | .adding a => a.woken w.now
  | .reading r => r.woken w.now w.store
  | .publishing _ p => p.woken w.now
  | .requesting i r =>
    match w.workers[i]? with
    | some k => r.woken w.now k
    | none => true
  | .shutting i s =>
    match w.workers[i]? with
    | some k => s.woken w.now k
    | none => true
  | .running _ r | .dispatched _ _ _ r => r.woken w.now w.tokens
  | .loose _ token h => h.woken w.now (w.isCancelled token)
  | .executing e => e.woken w.now w.tokens
  | .offering i stop o =>
    match w.handoffs[i]? with
    | some h => o.woken h (w.isCancelled stop)
    | none => true
  | .taking i t =>
    match w.handoffs[i]? with
    | some h => t.woken h w.now
    | none => true
  | .driving r => w.runnerWoken id r
  | .sleeping d => d ≤ w.now
  | _ => true

def woken (w : World) : Agent → Bool
  | .call id =>
    match Table.get? id w.calls with
    | some c => w.callWoken id c
    | none => false
  | .loop i =>
    match w.workers[i]? with
    | some k =>
      match k.consumer with
      | .active c => c.woken w.now (w.isCancelled k.stop) w.store k.handoff
      | _ => false
    | none => false

def callToken? : Call → Option Token
  | .running _ (.under e) | .dispatched _ _ _ (.under e) | .executing e => some e.token
  | .loose _ token _ => some token
  | .offering _ stop _ => some stop
  | .driving r => some r.shutdown
  | _ => none

/-- The mark of the token somebody waits for, if it was derived from another one and
is cancelled. -/
def derivedMark? (w : World) : Agent → Option Nat
  | .loop _ => none
  | .call id =>
    match (Table.get? id w.calls).bind callToken? with
    | some t => if !t.ancestors.isEmpty && w.isCancelled t then some t.mark else none
    | none => none

def runnerDeadlines (r : Runner) : List Nat :=
  match r.stage with
  | .asking (.worker q) => q.deadline?.toList
  | .asking (.supply _ due) => [due]
  | .pausing d => [d]
  | .draining d => [d]
  | _ => []

def callDeadlines : Call → List Nat
  | .adding a => [a.due]
  | .reading r => [r.deadline]
  | .publishing _ p => p.deadline?.toList
  | .requesting _ r => r.deadline?.toList
  | .shutting _ s => s.deadline?.toList
  | .running _ r | .dispatched _ _ _ r => r.deadlines
  | .loose _ _ h => h.deadline?.toList
  | .executing e => e.deadlines
  | .taking _ t => [t.deadline]
  | .driving r => runnerDeadlines r
  | .sleeping d => [d]
  | _ => []

def deadlines (w : World) : List Nat :=
  w.calls.flatMap (fun p => callDeadlines p.2) ++
    w.workers.flatMap fun k =>
      match k.consumer with
      | .active c => c.deadline?.toList
      | _ => []

def agents (w : World) : List Agent :=
  w.calls.map (fun p => .call p.1) ++
    (w.workers.mapIdx fun i k => if k.consumer.isActive then [Agent.loop i] else []).flatten

end World

end TaskRelay
