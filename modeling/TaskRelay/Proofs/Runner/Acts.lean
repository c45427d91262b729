import TaskRelay.Proofs.World.Moves

/-!
# Runs with runners

Besides the moves of workers and producers, a runner may be started on a worker, and any
token may be cancelled at any moment. A runner takes its steps as the calls of workers do,
and the tasks it dispatches are calls of their own.

Like the deeds on a queue, the doings of a runner are told from the worlds before and after
an act: what its request returned, which calls it left behind, and which of those have
begun to execute.
-/

set_option autoImplicit false

namespace TaskRelay

inductive Doing
  | returned (e : Entry)
  | dispatched (call : Nat) (task : Task)
  | begun (call : Nat) (h : Handling)

namespace Book

def returned (ds : List Doing) : List Entry :=
  ds.filterMap fun
    | .returned e => some e
    | _ => none

def dispatched (ds : List Doing) : List (Nat × Task) :=
  ds.filterMap fun
    | .dispatched n t => some (n, t)
    | _ => none

def begun (n : Nat) (ds : List Doing) : List Handling :=
  ds.filterMap fun
    | .begun m h => if m = n then some h else none
    | _ => none

section
variable (ds ds' : List Doing)

@[simp]
theorem returned_append : returned (ds ++ ds') = returned ds ++ returned ds' :=
  List.filterMap_append

@[simp]
theorem dispatched_append : dispatched (ds ++ ds') = dispatched ds ++ dispatched ds' :=
  List.filterMap_append

@[simp]
theorem begun_append (n : Nat) : begun n (ds ++ ds') = begun n ds ++ begun n ds' :=
  List.filterMap_append

end

end Book

def Call.ordered? (d : Nat) : Call → Option Task
  | .dispatched owner _ _ (.fresh _ task) => if owner = d then some task else none
  | _ => none

def Call.handling? (d : Nat) : Call → Option Handling
  | .dispatched owner _ _ (.under e) => if owner = d then some e.work.work else none
  | _ => none

def Request.entry? : Progress Request (Except WorkerError Entry) → Option Entry
  | .done (.ok e) => some e
  | _ => none

namespace World

inductive Act
  | move (m : Move)
  | drive (worker : Nat) (settings : RunnerSettings) (shutdown : Token)
  | cancel (t : Token)

def act (w : World) : Act → World
  | .move m => w.move m
  | .drive i settings t => (w.begin (.driving ⟨.worker i, settings, t, 0, .fresh⟩)).1
  | .cancel t => w.cancel t

def play : List Act → World → World
  | [], w => w
  | a :: as, w => play as (w.act a)

def call? (w : World) (n : Nat) : Option Call := Table.get? n w.calls

def answer? (w : World) (r : Runner) : Option Entry :=
  match r.stage, r.source with
  | .asking (.worker q), .worker i =>
    match w.isCancelled r.shutdown, w.workers[i]? with
    | false, some k => Request.entry? (q.step w.now k).2.2
    | _, _ => none
  | _, _ => none

def answered (w : World) (n : Nat) : List Entry :=
  match w.call? n with
  | some (.driving r) => (w.answer? r).toList
  | _ => []

def runnerDeeds (q : Queue) (w : World) (n : Nat) : List Deed :=
  match w.call? n with
  | some (.driving r) =>
    match r.source with
    | .worker i => if w.serves q i then (w.answered n).map (.returned i) else []
    | .supplies _ => []
  | _ => []

def actDeeds (q : Queue) (w : World) : Act → List Deed
  | .move m =>
    w.deeds q m ++
      match m with
      | .step (.call n) => w.runnerDeeds q n
      | _ => []
  | _ => []

def annals (q : Queue) : List Act → World → List Deed
  | [], _ => []
  | a :: as, w => w.actDeeds q a ++ annals q as (w.act a)

def newcomer (d : Nat) (w w' : World) : List Doing :=
  (((w'.call? w.nextCall).bind (Call.ordered? d)).map (.dispatched w.nextCall)).toList

def debut (d n : Nat) (w w' : World) : List Doing :=
  if ((w.call? n).bind (Call.ordered? d)).isSome then
    (((w'.call? n).bind (Call.handling? d)).map (.begun n)).toList
  else []

def actDoings (d : Nat) (w : World) (a : Act) : List Doing :=
  match a with
  | .move (.step (.call n)) =>
    (if n = d then (w.answered n).map .returned else []) ++ newcomer d w (w.act a) ++
      debut d n w (w.act a)
  | _ => []

def doings (d : Nat) : List Act → World → List Doing
  | [], _ => []
  | a :: as, w => w.actDoings d a ++ doings d as (w.act a)

theorem annals_append (q : Queue) (as bs : List Act) (w : World) :
    annals q (as ++ bs) w = annals q as w ++ annals q bs (play as w) := by
  induction as generalizing w with
  | nil => rfl
  | cons a as ih => simp [annals, play, ih]

end World

end TaskRelay
