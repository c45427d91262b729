import TaskRelay.Proofs.Delivery.InOrder
import TaskRelay.Proofs.Runner.Acts

/-!
# Steps of runners and of what they dispatch

A step of a runner tends its worker at most: it begins, drops or continues a request. If the
request returns an entry, the task of the entry is dispatched in the same step. A runner that
ends names the number of tasks it dispatched. A dispatched call hands its task to the handler
of the worker in its first step, and touches neither store nor workers.
-/

set_option autoImplicit false

namespace TaskRelay

structure StaffStep (i : Nat) (k : Worker) (ds : List Deed) (k' : Worker) : Prop
    extends WorkerStep i k ds k' where
  handler : k'.handler = k.handler
  apart : k'.consumer = k.consumer ∨ k'.handoff.slot = k.handoff.slot

theorem Work.slot_alone {i : Nat} {sh sh' : Shelf} {stage : Stage} {slot slot' : Option Entry}
    {ds : List Deed} (h : Work i sh ⟨stage, slot⟩ ds sh' ⟨stage, slot'⟩) :
    slot' = slot ∨ ∃ e, slot = some e ∧ .returned i e ∈ ds := by
  cases h with
  | take stage e => exact Or.inr ⟨e, rfl, List.mem_singleton_self _⟩
  | _ => exact Or.inl rfl

/-- A call takes an entry out of the slot only to return it. -/
theorem StaffStep.slot {i : Nat} {k k' : Worker} {ds : List Deed} (h : StaffStep i k ds k') :
    k'.handoff.slot = k.handoff.slot ∨
      ∃ e, k.handoff.slot = some e ∧ .returned i e ∈ ds := by
  rcases h.apart with hc | hs
  · have hw := h.work (Store.empty.shelf k.queue)
    rw [hc] at hw
    exact hw.slot_alone
  · exact Or.inl hs

section
variable {i : Nat} {k : Worker} (hk : k.Proper)
include hk

theorem spawn_staff : StaffStep i k [] k.spawn := by
  refine ⟨spawn_step hk, ?_, ?_⟩
  · unfold Worker.spawn
    split <;> rfl
  · unfold Worker.spawn
    split <;> exact Or.inr rfl

theorem abandon_staff (r : Request) : StaffStep i k [] (r.abandon k) := by
  refine ⟨abandon_step hk r, ?_, ?_⟩
  · cases r <;> rfl
  · cases r <;> exact Or.inl rfl

theorem request_staff (now : Nat) (r : Request) :
    StaffStep i k (Request.returns i (r.step now k).2.2) (r.step now k).1 := by
  have after (n : Nat) (h : Handoff Entry) (p : Progress Take (Taken Entry)) :
      (Request.afterTake k n h p).1.handler = k.handler ∧
        (Request.afterTake k n h p).1.consumer = k.consumer := by
    unfold Request.afterTake
    split <;> exact ⟨rfl, rfl⟩
  have hs := spawn_staff (i := i) hk
  have ends : (r.step now k).1.handler = k.handler ∧
      ((r.step now k).1.consumer = k.consumer ∨
        (r.step now k).1.handoff.slot = k.handoff.slot) := by
    cases r with
    | fresh => exact ⟨hs.handler, hs.apart⟩
    | between n =>
      simp only [Request.step]
      split
      · exact (after _ _ _).imp_right Or.inl
      · exact ⟨rfl, Or.inl rfl⟩
    | taking n t => exact (after _ _ _).imp_right Or.inl
  exact ⟨request_step hk now r, ends.1, ends.2⟩

theorem shutdown_staff (now : Nat) (tokens : Cancellations) (store : Store) (s : Shutdown) :
    StaffStep i k [] (s.step now tokens store k).worker := by
  have ends : (s.step now tokens store k).worker.handler = k.handler ∧
      (s.step now tokens store k).worker.handoff.slot = k.handoff.slot := by
    cases s with
    | fresh =>
      simp only [Shutdown.step]
      split <;> exact ⟨rfl, rfl⟩
    | joining d =>
      simp only [Shutdown.step]
      split
      · exact ⟨rfl, rfl⟩
      · exact ⟨rfl, rfl⟩
      · exact ⟨rfl, rfl⟩
      · exact ⟨rfl, rfl⟩
      · split <;> exact ⟨rfl, rfl⟩
    | closing => exact ⟨rfl, rfl⟩
  exact ⟨(shutdown_step hk now tokens store s).1, ends.1, Or.inr ends.2⟩

end

structure Runner.Mans (r : Runner) (i : Nat) : Prop where
  source : r.source = .worker i
  unsupplied : ∀ x due, r.stage ≠ .asking (.supply x due)

namespace World

structure Matches (w w' : World) : Prop where
  store : w.store = w'.store
  workers : w.workers = w'.workers
  calls : w.calls = w'.calls
  nextCall : w.nextCall = w'.nextCall
  ended : w.ended = w'.ended

namespace Matches

variable {w w' w'' : World}

theorem refl (w : World) : w.Matches w := ⟨rfl, rfl, rfl, rfl, rfl⟩

theorem trans (h : w.Matches w') (h' : w'.Matches w'') : w.Matches w'' :=
  ⟨h.store.trans h'.store, h.workers.trans h'.workers, h.calls.trans h'.calls,
    h.nextCall.trans h'.nextCall, h.ended.trans h'.ended⟩

theorem noted (w : World) (n : Note) : (w.note n).Matches w := by
  cases n <;> exact ⟨rfl, rfl, rfl, rfl, rfl⟩

theorem freed (w : World) (owner n : Nat) : (w.setFree owner n).Matches w :=
  ⟨rfl, rfl, rfl, rfl, rfl⟩

theorem notes (w : World) (ns : List Note) : (w.notes ns).Matches w := by
  induction ns generalizing w with
  | nil => exact refl w
  | cons n ns ih => exact (ih (w.note n)).trans (noted w n)

theorem cancelled (w : World) (t : Token) : (w.cancel t).Matches w := ⟨rfl, rfl, rfl, rfl, rfl⟩

theorem begun (h : w.Matches w') (c : Call) : (w.begin c).1.Matches (w'.begin c).1 := by
  refine ⟨h.store, h.workers, ?_, ?_, h.ended⟩
  · rw [begin, begin, h.calls, h.nextCall]
  · rw [begin, begin, h.nextCall]

end Matches

def Tends (w : World) (i : Nat) (w₁ : World) : Prop :=
  w₁.Matches w ∨ ∃ k k', w.workers[i]? = some k ∧ StaffStep i k [] k' ∧
    w₁.Matches (w.setWorker i k')

theorem Tends.matched {w w₁ w₂ : World} {i : Nat} (h : w.Tends i w₁) (hm : w₂.Matches w₁) :
    w.Tends i w₂ := by
  rcases h with h | ⟨k, k', hk, hs, h⟩
  · exact Or.inl (hm.trans h)
  · exact Or.inr ⟨k, k', hk, hs, hm.trans h⟩

inductive Drives (w : World) (d i : Nat) (r : Runner) : World × Progress Runner Outcome → Prop
  | goes {w₁ : World} {s : Runner} {p : Progress Runner Outcome} (tends : w.Tends i w₁)
      (mans : s.Mans i) (same : s.settings = r.settings) (count : s.dispatched = r.dispatched)
      (on : p = .running s ∨ p = .waiting s) (nothing : w.answer? r = none) :
      Drives w d i r (w₁, p)
  | takes {w₁ : World} {s : Runner} {k k' : Worker} {e : Entry} {token : Token}
      (mans : s.Mans i) (same : s.settings = r.settings)
      (count : s.dispatched = r.dispatched + 1)
      (worker : w.workers[i]? = some k) (work : StaffStep i k [.returned i e] k')
      (answer : w.answer? r = some e)
      (dispatched : w₁.Matches
        ((w.setWorker i k').begin (.dispatched d i e.task.id (.fresh token e.task))).1) :
      Drives w d i r (w₁, .running s)
  | ends {w₁ : World} (same : w₁.Matches w) (nothing : w.answer? r = none) :
      Drives w d i r (w₁, .done (.drove r.dispatched))
  | panics {w₁ : World} (many : Runner.maxPermits < r.capacity) (same : w₁.Matches w)
      (nothing : w.answer? r = none) :
      Drives w d i r (w₁, .done .panicked)

section
variable {w : World} {d i : Nat} {r : Runner} (hr : r.Mans i)
include hr

/-- The runner goes on to a stage in which it asks nothing, or asks its worker. -/
theorem drives_on {w₁ : World} (tends : w.Tends i w₁) (nothing : w.answer? r = none)
    {s : RunnerStage} (hs : ∀ x due, s ≠ .asking (.supply x due)) :
    w.Drives d i r (w₁.drives r s) :=
  .goes (s := { r with stage := s }) tends ⟨hr.source, hs⟩ rfl rfl (Or.inl rfl) nothing

/-- A runner that asks its worker takes what the request returns. -/
theorem asking_step (hw : ∀ k ∈ w.workers, k.Proper) {q : Request}
    (hst : r.stage = .asking (.worker q)) (hc : w.isCancelled r.shutdown = false) :
    w.Drives d i r (w.stepRunner d r) := by
  simp only [stepRunner, hst, hc, Bool.false_eq_true, if_false, ask, hr.source]
  cases hk : w.workers[i]? with
  | none =>
    have nothing : w.answer? r = none := by simp [answer?, hst, hr.source, hk]
    refine drives_on hr (Or.inl ?_) nothing (by simp)
    exact (Matches.freed _ _ _).trans (.noted _ _)
  | some k =>
    have hs := request_staff (i := i) (hw k (List.mem_of_getElem? hk)) w.now q
    have ha : w.answer? r = Request.entry? (q.step w.now k).2.2 := by
      simp only [answer?, hst, hr.source, hc, hk]
    simp only
    generalize q.step w.now k = t at hs ha ⊢
    obtain ⟨k', ns, p⟩ := t
    have tends (hd : Request.returns i p = []) {w₁ : World}
        (hm : w₁.Matches ((w.setWorker i k').notes ns)) : w.Tends i w₁ := by
      rw [hd] at hs
      exact Or.inr ⟨k, k', hk, hs, hm.trans (.notes _ _)⟩
    rcases p with q' | q' | e | e
    · exact drives_on hr (tends rfl (.refl _)) ha (by simp)
    · exact .goes (s := { r with stage := .asking (.worker q') }) (tends rfl (.refl _))
        ⟨hr.source, by simp⟩ rfl rfl (Or.inr rfl) ha
    · cases e with
      | noTaskInQueue => exact drives_on hr (tends rfl (.freed _ _ _)) ha (by simp)
      | queueHasBeenClosed =>
        exact drives_on hr (tends rfl ((Matches.freed _ _ _).trans (.noted _ _))) ha (by simp)
      | _ => exact drives_on hr (tends rfl (.noted _ _)) ha (by simp)
    · simp only [taskOf_task, Runner.Asked.of, dispatch, hr.source]
      refine .takes (s := ⟨.worker i, r.settings, r.shutdown, r.dispatched + 1, .acquiring⟩)
        ⟨rfl, by simp⟩ rfl rfl hk hs ha (Matches.begun ?_ _)
      have hm := (Matches.notes ((w.setWorker i k').notes ns) (k'.taskOf e).1).trans (.notes _ _)
      exact ⟨hm.store, hm.workers, hm.calls, hm.nextCall, hm.ended⟩

/-- A runner that has been told to stop drops its request. -/
theorem dropAsking_tends (hw : ∀ k ∈ w.workers, k.Proper) (a : Asking) :
    w.Tends i (w.dropAsking r a) := by
  cases a with
  | worker q =>
    simp only [dropAsking, hr.source]
    cases hk : w.workers[i]? with
    | none => exact Or.inl (.refl w)
    | some k =>
      exact Or.inr ⟨k, _, hk, abandon_staff (hw k (List.mem_of_getElem? hk)) q, .refl _⟩
  | fresh => exact Or.inl (.refl w)
  | supply x due => exact Or.inl (.refl w)

theorem runner_step (hw : ∀ k ∈ w.workers, k.Proper) : w.Drives d i r (w.stepRunner d r) := by
  have quiet (h : ∀ a, r.stage ≠ .asking a) : w.answer? r = none := by
    unfold answer?
    split
    · next hs _ => exact absurd hs (h _)
    · rfl
  cases hst : r.stage with
  | fresh =>
    have nothing := quiet (by simp [hst])
    simp only [stepRunner, hst]
    split
    · next many => exact .panics many (.noted _ _) nothing
    · exact drives_on hr (Or.inl ((Matches.freed _ _ _).trans (.noted _ _))) nothing (by simp)
  | acquiring =>
    have nothing := quiet (by simp [hst])
    simp only [stepRunner, hst]
    split
    · exact drives_on hr (Or.inl (.refl w)) nothing (by simp)
    · split
      · exact drives_on hr (Or.inl (.freed _ _ _)) nothing (by simp)
      · exact .goes (Or.inl (.refl w)) hr rfl rfl (Or.inr rfl) nothing
  | asking a =>
    cases hc : w.isCancelled r.shutdown with
    | true =>
      have nothing : w.answer? r = none := by
        unfold answer?
        rw [hc]
        split <;> rfl
      simp only [stepRunner, hst, hc, if_true]
      exact drives_on hr ((dropAsking_tends hr hw a).matched (.freed _ _ _)) nothing (by simp)
    | false =>
      cases a with
      | fresh =>
        have nothing : w.answer? r = none := by simp [answer?, hst]
        simp only [stepRunner, hst, hc, Bool.false_eq_true, if_false, ask, hr.source]
        exact drives_on hr (Or.inl (.refl w)) nothing (by simp)
      | worker q => exact asking_step hr hw hst hc
      | supply x due => exact absurd hst (hr.unsupplied x due)
  | pausing t =>
    have nothing := quiet (by simp [hst])
    simp only [stepRunner, hst]
    split
    · exact drives_on hr (Or.inl (.freed _ _ _)) nothing (by simp)
    · exact .goes (Or.inl (.refl w)) hr rfl rfl (Or.inr rfl) nothing
  | winding =>
    have nothing := quiet (by simp [hst])
    simp only [stepRunner, hst]
    split
    · exact drives_on hr (s := .draining _)
        (Or.inl ((Matches.cancelled _ _).trans (.noted _ _))) nothing (by simp)
    · exact .ends (.noted _ _) nothing
  | draining t =>
    have nothing := quiet (by simp [hst])
    simp only [stepRunner, hst]
    split
    · exact .ends (.noted _ _) nothing
    · split
      · exact .ends ((Matches.noted _ _).trans (.noted _ _)) nothing
      · exact .goes (Or.inl (.refl w)) hr rfl rfl (Or.inr rfl) nothing

end

def left? : Progress Call Outcome → Option Call
  | .running c | .waiting c => some c
  | .done _ => none

inductive Executes (w : World) (owner i : Nat) (task : Uuid) : Run → Option Call → Prop
  | begins {token : Token} {t : Task} {k : Worker} {e : Execution}
      (worker : w.workers[i]? = some k) (work : e.work.work = .start k.handler t) :
      Executes w owner i task (.fresh token t) (some (.dispatched owner i task (.under e)))
  | goes (e e' : Execution) :
      Executes w owner i task (.under e) (some (.dispatched owner i task (.under e')))
  | ends (e : Execution) : Executes w owner i task (.under e) none
  | lost (r : Run) (nobody : w.workers[i]? = none) : Executes w owner i task r none

theorem under_step (now : Nat) (tokens : Cancellations) (handler : Handler) (e : Execution) :
    (∃ e', ((Run.under e).step now tokens handler).progress = .running (.under e') ∨
      ((Run.under e).step now tokens handler).progress = .waiting (.under e')) ∨
    ∃ x, ((Run.under e).step now tokens handler).progress = .done x := by
  simp only [Run.step, Run.after]
  split
  · exact Or.inl ⟨_, Or.inl rfl⟩
  · exact Or.inl ⟨_, Or.inr rfl⟩
  · exact Or.inr ⟨_, rfl⟩
  · exact Or.inr ⟨_, rfl⟩
  · exact Or.inr ⟨_, rfl⟩
  · exact Or.inr ⟨_, rfl⟩

theorem dispatched_step (w : World) (id owner i : Nat) (task : Uuid) (r : Run) :
    (w.stepCall id (.dispatched owner i task r)).1.Matches w ∧
      w.Executes owner i task r (left? (w.stepCall id (.dispatched owner i task r)).2) := by
  simp only [stepCall, stepRun]
  cases hk : w.workers[i]? with
  | none => exact ⟨.freed _ _ _, .lost r hk⟩
  | some k =>
    have hm (tokens : Cancellations) (ns : List Note) :
        ({ w with tokens := tokens }.notes ns).Matches w :=
      (Matches.notes _ ns).trans ⟨rfl, rfl, rfl, rfl, rfl⟩
    cases r with
    | fresh token t => exact ⟨hm _ _, .begins hk rfl⟩
    | under e =>
      rcases under_step w.now w.tokens k.handler e with ⟨e', h | h⟩ | ⟨x, h⟩
      · simp only [h]
        exact ⟨hm _ _, .goes e e'⟩
      · simp only [h]
        exact ⟨hm _ _, .goes e e'⟩
      · simp only [h]
        exact ⟨(Matches.freed _ _ _).trans ((Matches.notes _ _).trans (hm _ _)), .ends e⟩

end World

end TaskRelay
