import TaskRelay.Proofs.Store.Calls
import TaskRelay.World.Step

/-!
# Runs of workers on one store

Workers of any queues share a store with producers that add entries on their own.
A move lets one call or one consumer loop do one uninterrupted action, starts or
drops a call, or does something from outside; a list of moves is a run under one
interleaving. Nobody but the consumer loops reads, acknowledges or claims.

The deeds of a move are what it did to the entries of a queue, as far as the
worlds before and after it show. They are only looked at, no run depends on them.
-/

set_option autoImplicit false

namespace TaskRelay

def StreamSettings.queue (cfg : StreamSettings) : Queue := ⟨cfg.stream, cfg.group⟩

def Worker.queue (k : Worker) : Queue := k.settings.queue

inductive Deed
  | added (n : Nat) (fields : Fields)
  | handed (worker : Nat) (es : List Entry)
  | returned (worker : Nat) (e : Entry)
  | acked (worker : Nat) (id : String)
  | readded (worker : Nat) (id copy : String)
  deriving DecidableEq, Repr

namespace World

inductive Move
  | step (a : Agent)
  | wait (millis : Nat)
  | create (settings : StreamSettings) (handler : Handler)
  | spawn (worker : Nat)
  | publish (worker : Nat) (task : Task)
  | request (worker : Nat)
  | shutdown (worker : Nat)
  | drop (call : Nat)
  | letGo (worker : Nat)
  | panic (worker : Nat)
  | add (stream : String) (fields : Fields) (maxLen : Nat)
  | createGroup (q : Queue)
  | closeStore
  | delayAdds (millis : Nat)
  | failReads (n : Nat)
  | failAcks (n : Nat)
  | look (view : StoreView)

def onStore (view : StoreView) (ops : List Store.Op) : World :=
  { start view with store := .after ops }

def dropCall (w : World) (id : Nat) : World :=
  match Table.get? id w.calls with
  | some (.requesting i r) =>
    let w := { w with calls := Table.erase id w.calls }
    match w.workers[i]? with
    | some k => (w.setWorker i (r.abandon k)).sweep
    | none => w
  | some (.publishing _ _) | some (.adding _) =>
    { w with calls := Table.erase id w.calls }.sweep
  | _ => w

def move (w : World) : Move → World
  | .step a => (w.step a).1
  | .wait millis => { w with now := w.now + millis }
  | .create settings handler =>
    match w.createWorker settings handler with
    | .ok (w, _) => w
    | .error _ => w
  | .spawn i =>
    match w.workers[i]? with
    | some k => w.setWorker i k.spawn
    | none => w
  | .publish i task => (w.begin (.publishing i (.fresh task))).1
  | .request i => (w.begin (.requesting i .fresh)).1
  | .shutdown i => (w.begin (.shutting i .fresh)).1
  | .drop id => w.dropCall id
  | .letGo i => w.letGo i
  | .panic i =>
    match w.workers[i]? with
    | some k => if k.consumer.isActive then w.setWorker i { k with consumer := .panicked } else w
    | none => w
  | .add stream fields maxLen =>
    (w.begin (.adding (w.store.beginAdd w.now stream fields maxLen))).1
  | .createGroup q =>
    match w.store.createGroup q.stream q.group with
    | .ok store => { w with store := store }
    | .error _ => w
  | .closeStore => { w with store := w.store.close }
  | .delayAdds millis => { w with store := { w.store with addDelay := millis } }
  | .failReads n => { w with store := { w.store with failingReads := n } }
  | .failAcks n => { w with store := { w.store with failingAcks := n } }
  | .look view => { w with view := view }

def run : List Move → World → World
  | [], w => w
  | m :: ms, w => run ms (w.move m)

def additions (old new : Shelf) : List Deed := (old.gained new).map fun p => .added p.1 p.2

def loopDeeds (i : Nat) (gained : List (Nat × Fields)) : LoopState → LoopState → List Deed
  | .active .top, .active (.holding es) => [.handed i es]
  | .active (.reading _), .active (.holding es) => [.handed i es]
  | .active (.acking id _), _ => [.acked i id]
  | .active (.adding _ id _), _ => gained.map fun p => .readded i id (entryId p.1)
  | _, _ => []

def callDeeds (i : Nat) (ended : List Ended) : List Deed :=
  ended.filterMap fun e =>
    match e.outcome with
    | .requested (.ok e) => some (.returned i e)
    | _ => none

def serves (w : World) (q : Queue) (i : Nat) : Bool :=
  w.workers[i]?.map Worker.queue == some q

def agentDeeds (q : Queue) (w w' : World) : Agent → List Deed
  | .loop i =>
    match w.workers[i]?, w'.workers[i]? with
    | some k, some k' =>
      if k.queue = q then
        loopDeeds i ((w.store.shelf q).gained (w'.store.shelf q)) k.consumer k'.consumer
      else []
    | _, _ => []
  | .call id =>
    match Table.get? id w.calls with
    | some (.requesting i _) =>
      if w.serves q i then callDeeds i (w'.ended.drop w.ended.length) else []
    | _ => []

def deeds (q : Queue) (w : World) (m : Move) : List Deed :=
  additions (w.store.shelf q) ((w.move m).store.shelf q) ++
    match m with
    | .step a => agentDeeds q w (w.move m) a
    | _ => []

def history (q : Queue) : List Move → World → List Deed
  | [], _ => []
  | m :: ms, w => w.deeds q m ++ history q ms (w.move m)

theorem run_append (ms ms' : List Move) (w : World) : run (ms ++ ms') w = run ms' (run ms w) := by
  induction ms generalizing w with
  | nil => rfl
  | cons m ms ih => exact ih (w.move m)

theorem history_append (q : Queue) (ms ms' : List Move) (w : World) :
    history q (ms ++ ms') w = history q ms w ++ history q ms' (run ms w) := by
  induction ms generalizing w with
  | nil => rfl
  | cons m ms ih => simp [history, run, ih]

end World

end TaskRelay
