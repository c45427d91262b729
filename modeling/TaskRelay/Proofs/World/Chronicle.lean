import TaskRelay.Proofs.Worker.Closing
import TaskRelay.Proofs.World.Refinement

/-!
# The chronicle of a worker

What happens to a worker and to the calls on it, told from the worlds before and after each
move. Seen from one worker every move of the world is some steps of its life, with the
events told of the move.
-/

set_option autoImplicit false

namespace TaskRelay

def Call.visit? (i : Nat) : Call → Option Visit
  | .publishing j p => if j = i then some (.publishing p) else none
  | .requesting j r => if j = i then some (.requesting r) else none
  | .shutting j s => if j = i then some (.shutting s) else none
  | _ => none

namespace World

def visits (i : Nat) (calls : Table Nat Call) (id : Nat) : Option Visit :=
  (Table.get? id calls).bind (Call.visit? i)

def post (w : World) (i : Nat) : Post :=
  ⟨w.workers[i]?.map Worker.phase, w.store.closed, w.now, w.nextCall, visits i w.calls⟩

def spawnings (i : Nat) (w w' : World) : List Event :=
  if (w'.post i).justSpawned && !(w.post i).justSpawned then [.spawned] else []

def attempts (i : Nat) (w : World) : Move → List Event
  | .publish j _ | .request j | .shutdown j => if j = i then [.began w.nextCall] else []
  | .step (.loop j) =>
    if j = i && (w.workers[i]?.any fun k => k.consumer.isActive) then [.looped] else []
  | .step (.call id) =>
    match visits i w.calls id with
    | some (.shutting .fresh) => if w.workers[i]?.isSome then [.tried id] else []
    | _ => []
  | _ => []

def returns (i : Nat) (w w' : World) : Move → List Event
  | .step (.call id) =>
    if (visits i w.calls id).isSome then
      (w'.ended.drop w.ended.length).map fun e => .returned e.call e.outcome
    else []
  | _ => []

def events (i : Nat) (w : World) (m : Move) : List Event :=
  w.attempts i m ++ w.spawnings i (w.move m) ++ w.returns i (w.move m) m

def chronicle (i : Nat) : List Move → World → List Event
  | [], _ => []
  | m :: ms, w => w.events i m ++ chronicle i ms (w.move m)

section
variable (i : Nat) (w : World)

theorem visits_insert (calls : Table Nat Call) (id : Nat) (c : Call) :
    visits i (Table.insert id c calls) = Function.update (visits i calls) id (c.visit? i) := by
  funext id'
  by_cases h : id' = id
  · subst h
    simp [visits, Table.get?_insert_self]
  · rw [Function.update_of_ne h]
    simp [visits, Table.get?_insert_of_ne h]

theorem visits_erase (calls : Table Nat Call) (id : Nat) :
    visits i (Table.erase id calls) = Function.update (visits i calls) id none := by
  funext id'
  by_cases h : id' = id
  · subst h
    simp [visits, Table.get?_erase_self]
  · rw [Function.update_of_ne h]
    simp [visits, Table.get?_erase_of_ne h]

theorem post_notes (ns : List Note) : (w.notes ns).post i = w.post i := by simp [post]

theorem post_setCall (id : Nat) (c : Call) :
    (w.setCall id c).post i =
      { w.post i with calls := Function.update (visits i w.calls) id (c.visit? i) } := by
  simp [post, setCall, visits_insert]

theorem post_erase (id : Nat) (es : List Ended) :
    post { w with calls := Table.erase id w.calls, ended := es } i = (w.post i).forget id := by
  simp [post, Post.forget, visits_erase]

theorem post_setWorker_ne {j : Nat} (hj : j ≠ i) (k : Worker) :
    (w.setWorker j k).post i = w.post i := by
  simp [post, setWorker, List.getElem?_set_ne hj]

theorem post_setWorker {k : Worker} (hk : w.workers[i]? = some k) (k' : Worker) :
    (w.setWorker i k').post i = (w.post i).enter k'.phase := by
  have hi : i < w.workers.length := (List.getElem?_eq_some_iff.mp hk).1
  simp [post, setWorker, Post.enter, hi]

theorem post_phase {k : Worker} (hk : w.workers[i]? = some k) :
    (w.post i).phase = some k.phase := by simp [post, hk]

theorem post_enter {k : Worker} (hk : w.workers[i]? = some k) :
    (w.post i).enter k.phase = w.post i := by simp [post, Post.enter, hk]

end

section
variable (i : Nat)

/-- The loop of a dropped worker is ended from outside. -/
theorem sweep_lives (w : World) : Post.Run (w.post i) [] (w.sweep.post i) := by
  cases hk : w.workers[i]? with
  | none =>
    have hp : w.sweep.post i = w.post i := by simp [post, sweep, hk]
    rw [hp]
    exact .nil _
  | some k =>
    have hs : w.sweep.workers[i]? = some (if k.held || w.inUse i || !k.consumer.isActive then k
        else { k with consumer := .aborted }) := by
      simp only [sweep, List.getElem?_mapIdx, hk, Option.map_some]
    by_cases hd : (k.held || w.inUse i || !k.consumer.isActive) = true
    · rw [if_pos hd] at hs
      have hp : w.sweep.post i = w.post i := by
        simp only [post, hs, hk]
        rfl
      rw [hp]
      exact .nil _
    · have ha : k.consumer.isActive = true := by
        cases hc : k.consumer.isActive with
        | true => rfl
        | false => simp [hc] at hd
      rw [if_neg hd] at hs
      have hp : w.sweep.post i = (w.post i).enter { k.phase with loop := .aborted } := by
        simp only [post, hs]
        rfl
      rw [hp]
      exact (Post.Step.ended (post_phase i w hk) ha (Or.inr rfl)).run

theorem finish_lives (w : World) (id : Nat) (o : Outcome) :
    Post.Run ((w.post i).forget id) [] ((w.finish id o).post i) := by
  rw [← post_erase i w id (w.ended ++ [⟨id, w.now, o⟩])]
  exact sweep_lives i _

end

end World

end TaskRelay
