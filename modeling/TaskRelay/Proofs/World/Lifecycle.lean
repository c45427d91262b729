import TaskRelay.Proofs.World.Loops
import TaskRelay.World.Schedule

/-!
# The lifecycle of a worker

However starts, publications, requests and shutdowns interleave, and whatever becomes of the
consumer loop, a lifecycle goes forward only, one shutdown wins, and after it has returned
nothing happens on the worker any more.
-/

set_option autoImplicit false

namespace TaskRelay

open Chronicle

def Visit.refusal : Visit → Outcome
  | .publishing _ => .published (.error .queueShutdown)
  | .requesting _ => .requested (.error .queueHasBeenClosed)
  | .shutting _ => .shutDown (.error .queueShutdown)

namespace Chronicle

variable {h : List Event}

theorem first_mem {id : Nat} (hf : first? h = some id) : .tried id ∈ h := by
  obtain ⟨x, hx, he⟩ := List.exists_of_findSome?_eq_some hf
  cases x with
  | tried j =>
    cases he
    exact hx
  | _ => cases he

/-- The first shutdown to be tried is the one that succeeds. -/
theorem shutDown_returns (hf : Fitting Fits h) {id : Nat} {r : Except WorkerError Unit}
    (hm : .returned id (.shutDown r) ∈ h) :
    (r = .ok () ∨ r = .error .queueShutdown) ∧ (r = .ok () ↔ first? h = some id) := by
  obtain ⟨a, b, rfl⟩ := List.append_of_mem hm
  rcases (hf a _ b rfl).2.2 with ⟨rfl, hfirst⟩ | ⟨rfl, a', rfl, hover⟩
  · exact ⟨Or.inl rfl, by simp [first_append hfirst]⟩
  · obtain ⟨j, hj⟩ := over_iff_first.mp hover
    have hne : j ≠ id := by
      rintro rfl
      have ht : .tried j ∉ a' := hf a' (.tried j) _ (List.append_assoc ..)
      exact ht (first_mem hj)
    refine ⟨Or.inr rfl, nofun, fun hfirst => ?_⟩
    rw [List.append_assoc, first_append hj] at hfirst
    exact absurd (Option.some.inj hfirst) hne

/-- Nothing happens to a loop after a shutdown has returned, and calls that begin then are
refused. -/
theorem won_quiet (hf : Fitting Fits h) {a b : List Event} {j : Nat}
    (he : h = a ++ .returned j (.shutDown (.ok ())) :: b) :
    .looped ∉ b ∧ .spawned ∉ b ∧ ∀ id o, .began id ∈ b → .returned id o ∈ b → Refusal o := by
  have hfit (c : List Event) (x : Event) (d : List Event) (hb : b = c ++ x :: d) :
      Fits (a ++ .returned j (.shutDown (.ok ())) :: c) x := by
    refine hf _ x d ?_
    rw [he, hb]
    simp
  have hwon (c : List Event) : Won (a ++ .returned j (.shutDown (.ok ())) :: c) := ⟨j, by simp⟩
  refine ⟨fun hm => ?_, fun hm => ?_, fun id o hb hr => ?_⟩
  · obtain ⟨c, d, hb⟩ := List.append_of_mem hm
    exact hfit c .looped d hb (hwon c)
  · obtain ⟨c, d, hb⟩ := List.append_of_mem hm
    have hc : Fitting Fits (a ++ .returned j (.shutDown (.ok ())) :: c) := by
      refine Fitting.before (b := .spawned :: d) ?_
      rwa [List.append_assoc, List.cons_append, ← hb, ← he]
    exact (hfit c .spawned d hb).2 (over_of_won hc (hwon c))
  · obtain ⟨c, d, rfl⟩ := List.append_of_mem hr
    obtain ⟨hbefore, hlate, -⟩ := hfit c (.returned id o) d rfl
    rcases List.mem_append.mp hb with hb | hb
    · exact hlate ⟨a, j, c, rfl, hb⟩
    · obtain ⟨d₁, d₂, hd⟩ := List.append_of_mem ((List.mem_cons.mp hb).resolve_left nofun)
      refine absurd ?_ (hfit (c ++ .returned id o :: d₁) (.began id) d₂ (by simp [hd]))
      simp only [List.mem_append, List.mem_cons] at hbefore ⊢
      tauto

end Chronicle

namespace World

section
variable {w : World} {i id : Nat} {k : Worker}

/-- A call that has ended takes no further step. -/
theorem finish_gone (w : World) (id : Nat) (o : Outcome) :
    (w.finish id o).step (.call id) = (w.finish id o, .gone) := by
  have hc : Table.get? id (w.finish id o).calls = none := Table.get?_erase_self id w.calls
  simp only [step, hc]

theorem setWorker_self (hk : w.workers[i]? = some k) : w.setWorker i k = w := by
  obtain ⟨hi, rfl⟩ := List.getElem?_eq_some_iff.mp hk
  simp [setWorker]

theorem publish_refused (hk : w.workers[i]? = some k) (ho : k.lifecycle.isOver = true) {t : Task}
    (hc : Table.get? id w.calls = some (.publishing i (.fresh t))) :
    w.step (.call id) = (w.finish id (.published (.error .queueShutdown)), .gone) := by
  simp [step, hc, stepCall, hk, Publish.step, ho, Progress.within, notes]

/-- A shutdown that is not the first to be tried ends at once and changes nothing. -/
theorem shutdown_refused (hk : w.workers[i]? = some k) (ho : k.lifecycle.isOver = true)
    (hc : Table.get? id w.calls = some (.shutting i .fresh)) :
    w.step (.call id) = (w.finish id (.shutDown (.error .queueShutdown)), .gone) := by
  have hs : (setWorker { w with tokens := w.tokens, store := w.store } i k) = w :=
    setWorker_self hk
  simp [step, hc, stepCall, hk, Shutdown.step, ho, Progress.within, notes, hs]

/-- A request on a stopped worker looks at the handoff once and ends. -/
theorem request_refused (hk : w.workers[i]? = some k) (hcl : k.handoff.closed = true)
    (hc : Table.get? id w.calls = some (.requesting i (.between 0))) :
    ∃ k', w.step (.call id) =
      ((w.setWorker i k').finish id (.requested (.error .queueHasBeenClosed)), .gone) := by
  refine ⟨{ k with handoff := { k.handoff with offered := k.handoff.offered.settle } }, ?_⟩
  simp [step, hc, stepCall, hk, Request.step, Request.maxAttempts, Handoff.beginTake,
    Handoff.lookInSlot, hcl, Request.afterTake, notes]

theorem request_begun (hk : w.workers[i]? = some k) (hs : k.lifecycle = .stopped)
    (hc : Table.get? id w.calls = some (.requesting i .fresh)) :
    w.step (.call id) = (w.setCall id (.requesting i (.between 0)), .running) := by
  have hsp : k.spawn = k := by simp [Worker.spawn, hs]
  simp [step, hc, stepCall, hk, Request.step, hsp, setWorker_self hk, notes]

theorem visit_publishing {c : Call} {b : Publish} (h : c.visit? i = some (.publishing b)) :
    c = .publishing i b := by
  unfold Call.visit? at h
  split at h <;> simp_all

theorem visit_requesting {c : Call} {r : Request} (h : c.visit? i = some (.requesting r)) :
    c = .requesting i r := by
  unfold Call.visit? at h
  split at h <;> simp_all

theorem visit_shutting {c : Call} {s : Shutdown} (h : c.visit? i = some (.shutting s)) :
    c = .shutting i s := by
  unfold Call.visit? at h
  split at h <;> simp_all

/-- A call that began when the worker had stopped is refused within two steps, and leaves
the store alone. -/
theorem late_refused {h : List Event} (hl : (w.post i).Lived h) (hlate : Late h id) {v : Visit}
    (hv : (w.post i).calls id = some v) :
    (run [.step (.call id), .step (.call id)] w).ended = w.ended ++ [⟨id, w.now, v.refusal⟩] ∧
      (run [.step (.call id), .step (.call id)] w).store = w.store := by
  obtain ⟨hwon, -⟩ := late_won hlate
  obtain ⟨k, hk, hs, -, hcl, -⟩ := won_stopped hl hwon
  have ho : k.lifecycle.isOver = true := by rw [hs]; rfl
  obtain ⟨c, hc, hvc⟩ : ∃ c, Table.get? id w.calls = some c ∧ c.visit? i = some v :=
    Option.bind_eq_some_iff.mp hv
  have ends {w' : World} {o : Outcome} (hst : w.step (.call id) = (w'.finish id o, .gone)) :
      run [.step (.call id), .step (.call id)] w = w'.finish id o := by
    simp [run, move, hst, finish_gone]
  have hok := (hl.calls id v hv).2
  cases v with
  | publishing b =>
    obtain ⟨t, rfl⟩ := hok hlate
    rw [visit_publishing hvc] at hc
    rw [ends (publish_refused hk ho hc)]
    exact ⟨rfl, rfl⟩
  | requesting r =>
    rw [visit_requesting hvc] at hc
    rcases hok hlate with rfl | rfl
    · have hc' : Table.get? id (w.setCall id (.requesting i (.between 0))).calls =
          some (.requesting i (.between 0)) := Table.get?_insert_self id _ w.calls
      have hk' : (w.setCall id (.requesting i (.between 0))).workers[i]? = some k := hk
      obtain ⟨k', hst⟩ := request_refused hk' hcl hc'
      have hrun : run [.step (.call id), .step (.call id)] w =
          ((w.setCall id (.requesting i (.between 0))).setWorker i k').finish id
            (.requested (.error .queueHasBeenClosed)) := by
        simp only [run, move, request_begun hk hs hc, hst]
      rw [hrun]
      exact ⟨rfl, rfl⟩
    · obtain ⟨k', hst⟩ := request_refused hk hcl hc
      rw [ends hst]
      exact ⟨rfl, rfl⟩
  | shutting s =>
    rw [visit_shutting hvc] at hc
    have stopping (hwin : (w.post i).Winner h id) : False := by
      obtain ⟨-, f, hf, hst⟩ := hwin
      obtain rfl := Option.some.inj ((post_phase i w hk).symm.trans hf)
      rw [show k.lifecycle = .stopping from hst] at hs
      cases hs
    cases s with
    | fresh =>
      rw [ends (shutdown_refused hk ho hc)]
      exact ⟨rfl, rfl⟩
    | joining d => exact (stopping hok.1).elim
    | closing => exact (stopping hok.1).elim

theorem closing_returns (hw : w.Proper) (hk : w.workers[i]? = some k)
    (hc : Table.get? id w.calls = some (.shutting i .closing)) :
    .returned id (.shutDown (.ok ())) ∈ w.events i (.step (.call id)) := by
  have hm : w.move (.step (.call id)) = _ := step_call hc
  have hv : visits i w.calls id = some (.shutting .closing) := post_calls hc (if_pos rfl)
  have he := returns_endEvents (p := (w.stepCall id (.shutting i .closing)).2) hv
    (shutdown_call hw id i .closing).1.ended
  rw [events, hm, he]
  simp [stepCall, hk, Shutdown.step, Progress.within, endEvents]

/-- Once its time has come a shutdown waits for the loop no longer. -/
theorem joining_closes (hk : w.workers[i]? = some k) {d : Nat}
    (hc : Table.get? id w.calls = some (.shutting i (.joining d))) (hd : d ≤ w.now) :
    Table.get? id (w.move (.step (.call id))).calls = some (.shutting i .closing) ∧
      ∃ k', (w.move (.step (.call id))).workers[i]? = some k' := by
  have hi : i < w.workers.length := (List.getElem?_eq_some_iff.mp hk).1
  have hm : w.move (.step (.call id)) = _ := step_call hc
  have hp : (w.stepCall id (.shutting i (.joining d))).2 = .running (.shutting i .closing) := by
    cases hcs : k.consumer <;> simp [stepCall, hk, Shutdown.step, hcs, hd, Progress.within]
  rw [hm, hp]
  refine ⟨Table.get?_insert_self id _ _, ?_⟩
  simp [conclude, setCall, stepCall, setWorker, hi]

/-- The shutdown that was tried first succeeds when the grace period is over, if not before. -/
theorem winner_returns (hw : w.Proper) {h : List Event} (hl : (w.post i).Lived h)
    (hf : first? h = some id) : .returned id (.shutDown (.ok ())) ∈ h ∨
      ∀ millis, Shutdown.grace ≤ millis → .returned id (.shutDown (.ok ())) ∈
        chronicle i [.wait millis, .step (.call id), .step (.call id)] w := by
  rcases hl.winner id hf with ⟨s, hs, hv⟩ | hm
  · refine Or.inr fun millis hmillis => ?_
    obtain ⟨c, hc, hvc⟩ : ∃ c, Table.get? id w.calls = some c ∧ c.visit? i = some (.shutting s) :=
      Option.bind_eq_some_iff.mp hv
    rw [visit_shutting hvc] at hc
    have hok := (hl.calls id _ hv).2
    have worker (hwin : (w.post i).Winner h id) : ∃ k, w.workers[i]? = some k := by
      obtain ⟨-, f, hf, -⟩ := hwin
      obtain ⟨k, hk, -⟩ := Option.map_eq_some_iff.mp hf
      exact ⟨k, hk⟩
    have hwait : Proper (w.move (.wait millis)) := (move_follows hw _).proper hw
    rw [chronicle, chronicle, chronicle, chronicle, List.append_nil]
    cases s with
    | fresh => exact absurd rfl hs
    | joining d =>
      obtain ⟨k, hk⟩ := worker hok.1
      have hd : d ≤ (w.move (.wait millis)).now := by
        have hle := hok.2
        change d ≤ w.now + millis
        change d ≤ w.now + Shutdown.grace at hle
        omega
      obtain ⟨hc', k', hk'⟩ := joining_closes (w := w.move (.wait millis)) hk hc hd
      have hr := closing_returns ((move_follows hwait _).proper hwait) hk' hc'
      exact List.mem_append_right _ (List.mem_append_right _ hr)
    | closing =>
      obtain ⟨k, hk⟩ := worker hok.1
      have hr := closing_returns (w := w.move (.wait millis)) hwait hk hc
      exact List.mem_append_right _ (List.mem_append_left _ hr)
  · exact Or.inl hm

end

end World

/-- The life of worker `i` over a run, in any interleaving of starts, publications, requests
and shutdowns, with loops that panic, are aborted or are dropped. Its lifecycle goes forward
only and says what has happened. At most one loop is spawned, and none once a shutdown was
tried. The first shutdown to be tried succeeds, after the grace period at the latest, and
any other one ends at once and changes nothing. Nobody is told that the handoff is closed
before that. And once a shutdown has returned, the worker is stopped, its store and its
handoff are closed, its loop takes no further step, and calls that begin then are refused
within two steps that leave the store alone. -/
theorem worker_lifecycle (view : StoreView) (ops : List Store.Op) (ms : List World.Move)
    (i : Nat) :
    let w := World.run ms (World.onStore view ops)
    let h := World.chronicle i ms (World.onStore view ops)
    (∀ ms' k k', w.workers[i]? = some k → (World.run ms' w).workers[i]? = some k' →
      k.lifecycle.rank ≤ k'.lifecycle.rank) ∧
    (∀ k, w.workers[i]? = some k →
      (k.lifecycle = .notStarted ↔ .spawned ∉ h ∧ ¬Over h) ∧
      (k.lifecycle.isOver = true ↔ Over h) ∧ (k.lifecycle = .stopped ↔ Won h)) ∧
    (∀ a b, h = a ++ .spawned :: b → .spawned ∉ a ∧ ¬Over a) ∧
    (∀ id r, .returned id (.shutDown r) ∈ h →
      (r = .ok () ∨ r = .error .queueShutdown) ∧ (r = .ok () ↔ first? h = some id)) ∧
    (∀ id, first? h = some id → .returned id (.shutDown (.ok ())) ∈ h ∨
      ∀ millis, Shutdown.grace ≤ millis → .returned id (.shutDown (.ok ())) ∈
        World.chronicle i [.wait millis, .step (.call id), .step (.call id)] w) ∧
    (∀ k id, w.workers[i]? = some k → k.lifecycle.isOver = true →
      Table.get? id w.calls = some (.shutting i .fresh) →
      w.step (.call id) = (w.finish id (.shutDown (.error .queueShutdown)), .gone)) ∧
    (∀ a id b, h = a ++ .returned id (.requested (.error .queueHasBeenClosed)) :: b → Over a) ∧
    ∀ a j b, h = a ++ .returned j (.shutDown (.ok ())) :: b →
      (∃ k, w.workers[i]? = some k ∧ k.lifecycle = .stopped ∧ w.store.closed = true ∧
        k.handoff.closed = true ∧ k.consumer.isActive = false ∧
        w.step (.loop i) = (w, .gone)) ∧
      .looped ∉ b ∧ .spawned ∉ b ∧
      (∀ id o, .began id ∈ b → .returned id o ∈ b → Refusal o) ∧
      ∀ id v, .began id ∈ b → (w.post i).calls id = some v →
        (World.run [.step (.call id), .step (.call id)] w).ended =
          w.ended ++ [⟨id, w.now, v.refusal⟩] ∧
        (World.run [.step (.call id), .step (.call id)] w).store = w.store := by
  intro w h
  have hw₀ := World.onStore_proper view ops
  have hw : w.Proper := World.run_proper ms hw₀
  have hl : (w.post i).Lived h := by
    have hl₀ := World.onStore_lived view ops i
    exact hl₀.run (World.run_lives ms hw₀ hl₀)
  refine ⟨fun ms' k k' hk hk' => ?_, fun k hk => ?_, fun a b he => hl.fits a .spawned b he,
    fun id r hm => shutDown_returns hl.fits hm, fun id hf => World.winner_returns hw hl hf,
    fun k id hk ho hc => World.shutdown_refused hk ho hc,
    fun a id b he => (hl.fits a _ b he).2.2 rfl, fun a j b he => ?_⟩
  · obtain ⟨f, hf, hle⟩ := (World.run_lives ms' hw hl).forward (World.post_phase i w hk)
    obtain rfl := Option.some.inj ((World.post_phase i _ hk').symm.trans hf)
    exact hle
  · have hr := hl.reached _ (World.post_phase i w hk)
    exact ⟨hr.fresh, hr.tried, hr.stopped⟩
  · have hwon : Won h := ⟨j, by simp [he]⟩
    obtain ⟨hlooped, hspawned, hrefused⟩ := won_quiet hl.fits he
    obtain ⟨k, hk, hs, hshut, hcl, hidle⟩ := World.won_stopped hl hwon
    have hgone : w.step (.loop i) = (w, .gone) :=
      World.step_idle (by rwa [World.post_loop hk])
    exact ⟨⟨k, hk, hs, hshut, hcl, hidle, hgone⟩, hlooped, hspawned, hrefused,
      fun id v hb hv => World.late_refused hl ⟨a, j, b, he, hb⟩ hv⟩

/-- Of two shutdowns under way the first succeeds, and a request that begins afterwards is told
so at once. -/
example :
    World.chronicle 0 [.create (.named "tasks" "crew" "first") (.scripted "none"), .request 0,
      .step (.call 0), .shutdown 0, .shutdown 0, .step (.call 1), .step (.call 2),
      .step (.loop 0), .step (.loop 0), .step (.call 1), .step (.call 1), .request 0,
      .step (.call 3), .step (.call 3), .step (.loop 0)] (World.onStore ⟨1, false⟩ []) =
    [.began 0, .spawned, .began 1, .began 2, .tried 1, .tried 2,
      .returned 2 (.shutDown (.error .queueShutdown)), .looped, .looped,
      .returned 1 (.shutDown (.ok ())), .began 3,
      .returned 3 (.requested (.error .queueHasBeenClosed))] := by
  rfl

end TaskRelay
