import TaskRelay.Proofs.Worker.Stopping
import TaskRelay.Proofs.World.Lifecycle

/-!
# Requests after a shutdown

A request on a worker whose shutdown has ended is told that the queue is closed, without the
clock moving and whatever else happens. Only one whose last attempt has just ended could be
told that the queue is empty, and there is none as long as everybody keeps the thread until
it waits.
-/

set_option autoImplicit false

namespace TaskRelay

def Request.Attempts (r : Request) : Prop :=
  r ≠ .fresh ∧ ∀ n, r = .between n → n < maxAttempts

namespace World

theorem request_closed {r : Request} (hr : r.Attempts) (now : Nat) {k : Worker}
    (hcl : k.handoff.closed = true) :
    (r.step now k).2.2 = .done (.error .queueHasBeenClosed) := by
  cases r with
  | fresh => exact absurd rfl hr.1
  | between n =>
    have ht := (k.handoff.lookInSlot_ends now (now + Request.pollInterval)).mpr hcl
    simp only [Request.step, if_pos (hr.2 n rfl), Handoff.beginTake, ht, Request.afterTake]
  | taking n t =>
    have ht := (t.resume_ends k.handoff now).mpr hcl
    simp only [Request.step, ht, Request.afterTake]

inductive Refusing (w : World) (i j t : Nat) : Nat → Prop
  | fresh (call : w.call? j = some (.requesting i .fresh)) (now : w.now = t) : Refusing w i j t 2
  | begun {r : Request} (call : w.call? j = some (.requesting i r)) (attempts : r.Attempts)
      (now : w.now = t) : Refusing w i j t 1
  | told (ended : w.EndedIn j t t (.requested (.error .queueHasBeenClosed))) : Refusing w i j t 0

theorem Refusing.endsBy {w : World} {i j t n : Nat} (h : w.Refusing i j t n) :
    w.EndsBy j t t (.requested (.error .queueHasBeenClosed)) := by
  cases h with
  | fresh call now => exact Or.inr ⟨by simp [call], now.ge, now.le⟩
  | begun call attempts now => exact Or.inr ⟨by simp [call], now.ge, now.le⟩
  | told ended => exact Or.inl ended

section
variable {w : World} (hw : w.Regular) {i j t n : Nat}
include hw

/-- A request on a worker that has stopped can go on. -/
theorem Refusing.woken (h : w.Refusing i j t n) (hs : w.Stopped i) (hj : w.call? j ≠ none) :
    w.woken (.call j) = true := by
  obtain ⟨k, hk, -, hcl⟩ := hs.closed hw
  have awake {r : Request} (call : w.call? j = some (.requesting i r)) :
      w.woken (.call j) = true := by
    simp only [woken_call call, callWoken, hk]
    cases r <;> simp [Request.woken, Take.woken, hcl]
  cases h with
  | fresh call => exact awake call
  | begun call => exact awake call
  | told ended => exact absurd (hw.under_way hj) ended.ne_none

theorem Refusing.own (h : w.Refusing i j t n) (hs : w.Stopped i) :
    (w.move (.step (.call j))).Refusing i j t (n - 1) := by
  obtain ⟨k, hk, hst, hcl⟩ := hs.closed hw
  have hnow := step_now hw.proper (.call j)
  cases h with
  | fresh call now =>
    have hb : (w.stepCall j (.requesting i .fresh)).2 = .running (.requesting i (.between 0)) := by
      simp [stepCall, hk, Request.step]
    exact .begun ((step_own hw.proper call).1.trans (congrArg left? hb))
      ⟨by simp, fun n hn => by cases hn; decide⟩ (hnow.trans now)
  | @begun r call attempts now =>
    have hclosed := request_closed attempts w.now hcl
    have hd : (w.stepCall j (.requesting i r)).2 =
        .done (.requested (.error .queueHasBeenClosed)) := by
      simp only [stepCall, hk, hclosed]
    have fore := hw.under_way (by rw [call]; simp)
    exact .told ⟨w.now, now.ge, now.le, ended?_own hw.proper call fore hd⟩
  | told ended => exact .told (endedIn_move hw.proper ended _)

theorem Refusing.other (h : w.Refusing i j t n) (hs : w.Stopped i) {m : Move}
    (ht : w.TimelyMove m) (hm : m ≠ .step (.call j)) (hd : m ≠ .drop j) :
    (w.move m).Refusing i j t n := by
  have kept {r : Request} (call : w.call? j = some (.requesting i r)) :
      (w.move m).call? j = some (.requesting i r) ∧ (w.move m).now = w.now := by
    refine ⟨call_kept hw.proper hw.filed call hm fun he => absurd he hd, ?_⟩
    exact still_now hw (h.woken hw hs (by rw [call]; simp)) ht
  cases h with
  | fresh call now => exact .fresh (kept call).1 ((kept call).2.trans now)
  | begun call attempts now => exact .begun (kept call).1 attempts ((kept call).2.trans now)
  | told ended => exact .told (endedIn_move hw.proper ended m)

omit hw in
theorem Refusing.run {ms : List Move} (hw : w.Regular) (h : w.Refusing i j t n) (hs : w.Stopped i)
    (ht : Timed ms w) (hd : .drop j ∉ ms) :
    (World.run ms w).Refusing i j t (n - ms.countP (Move.isStepOf (.call j))) := by
  refine (run_countdown (P := fun w ms n => w.Regular ∧ w.Stopped i ∧ Timed ms w ∧ .drop j ∉ ms ∧
    w.Refusing i j t n) ?_ ⟨hw, hs, ht, hd, h⟩).2.2.2.2
  rintro w m ms n ⟨hw, hs, ht, hd, h⟩
  rw [List.mem_cons, not_or] at hd
  refine ⟨hw.move m, hs.move hw m, ht.2, hd.2, ?_⟩
  by_cases hm : m.isStepOf (.call j) = true
  · obtain rfl := Move.eq_step hm
    rw [if_pos hm]
    exact h.own hw hs
  · rw [if_neg hm]
    exact h.other hw hs ht.1 (fun he => hm (by simp [he])) (Ne.symm hd.1)

structure Refused (w : World) (j : Nat) (ms : List Move) : Prop where
  due : (World.run ms w).EndsBy j w.now w.now (.requested (.error .queueHasBeenClosed))
  woken : (World.run ms w).call? j ≠ none → (World.run ms w).woken (.call j) = true
  ends : 2 ≤ ms.countP (Move.isStepOf (.call j)) →
    (World.run ms w).EndedIn j w.now w.now (.requested (.error .queueHasBeenClosed))

theorem Stopped.run (h : w.Stopped i) (ms : List Move) : (World.run ms w).Stopped i := by
  induction ms generalizing w with
  | nil => exact h
  | cons m ms ih => exact ih (hw.move m) (h.move hw m)

/-- Whoever still requests a task of a worker that has stopped is refused. -/
theorem Stopped.refuses (hs : w.Stopped i) {r : Request}
    (call : w.call? j = some (.requesting i r)) (hr : r = .fresh ∨ r.Attempts) {ms : List Move}
    (ht : Timed ms w) (hd : .drop j ∉ ms) : w.Refused j ms := by
  obtain ⟨n, hn, h⟩ : ∃ n ≤ 2, w.Refusing i j w.now n := by
    rcases hr with rfl | hr
    · exact ⟨2, Nat.le_refl 2, .fresh call rfl⟩
    · exact ⟨1, by decide, .begun call hr rfl⟩
  have hrun := h.run hw hs ht hd
  refine ⟨hrun.endsBy, hrun.woken (hw.run ms) (hs.run hw ms), fun hsteps => ?_⟩
  rw [Nat.sub_eq_zero_of_le (Nat.le_trans hn hsteps)] at hrun
  cases hrun with
  | told ended => exact ended

end

def KeepsThread (w : World) (m : Move) (ms : List Move) : Prop :=
  ∀ a ∈ m.agent?, (w.step a).2 = .running → ms.head?.all (Move.isStepOf a) = true

instance (w : World) (m : Move) (ms : List Move) : Decidable (w.KeepsThread m ms) :=
  inferInstanceAs (Decidable (∀ a ∈ m.agent?, _))

/-- A run in which everybody who goes on keeps the thread until it waits or has ended. -/
def Whole : List Move → World → Prop
  | [], _ => True
  | m :: ms, w => w.KeepsThread m ms ∧ Whole ms (w.move m)

instance decidableWhole : (ms : List Move) → (w : World) → Decidable (Whole ms w)
  | [], _ => .isTrue trivial
  | m :: ms, w => @instDecidableAnd _ _ inferInstance (decidableWhole ms (w.move m))

def Poised (w : World) (ms : List Move) : Prop :=
  ∀ j i n, w.call? j = some (.requesting i (.between (n + 1))) →
    ms.head?.all (Move.isStepOf (.call j)) = true

theorem request_waits {r r' : Request} {now : Nat} {k : Worker}
    (h : (r.step now k).2.2 = .waiting r') (n : Nat) : r' ≠ .between n := by
  have after {m : Nat} {h : Handoff Entry} {p : Progress Take (Taken Entry)}
      (hp : (Request.afterTake k m h p).2.2 = .waiting r') : r' ≠ .between n := by
    rcases p with t | t | ⟨e | _ | _⟩ <;> cases hp <;> simp
  cases r with
  | fresh => cases h
  | between m =>
    simp only [Request.step] at h
    split at h
    · exact after h
    · cases h
  | taking m t => exact after h

section
variable {w : World} (hw : w.Regular) {i j n : Nat}
include hw

/-- Nobody but a request goes on as one. -/
theorem others_unasking {c : Call} (hc : w.call? j = some c) (ho : ∀ i r, c ≠ .requesting i r)
    (r : Request) : left? (w.stepCall j c).2 ≠ some (.requesting i r) := by
  have kept {σ α : Type} {f : σ → Call} (hf : ∀ s, f s ≠ .requesting i r) (g : α → Outcome)
      (p : Progress σ α) : left? (p.within f g) ≠ some (.requesting i r) := fun h =>
    left?_within (P := (· ≠ .requesting i r)) hf g p _ h rfl
  cases c with
  | adding a => exact kept (by simp) _ _
  | publishing i' p =>
    simp only [stepCall]
    split
    · simp [left?]
    · exact kept (by simp) _ _
  | shutting i' s =>
    simp only [stepCall]
    split
    · simp [left?]
    · exact kept (by simp) _ _
  | requesting i' r' => exact absurd rfl (ho i' r')
  | _ => exact False.elim (hw.proper.calls j _ hc)

/-- A request comes between two attempts by a step of its own, and can go on. -/
theorem between_running
    (h : (w.move (.step (.call j))).call? j = some (.requesting i (.between n))) :
    (w.step (.call j)).2 = .running ∧ ∃ r k k' ns, w.call? j = some (.requesting i r) ∧
      w.workers[i]? = some k ∧ r.step w.now k = (k', ns, .running (.between n)) ∧
      (w.move (.step (.call j))).workers[i]? = some k' := by
  cases hc : w.call? j with
  | none =>
    rw [move, step_gone hc, hc] at h
    cases h
  | some c =>
    have hleft := (step_own hw.proper hc).1.symm.trans h
    have hc' : Table.get? j w.calls = some c := hc
    by_cases ho : ∀ i r, c ≠ .requesting i r
    · exact absurd hleft (others_unasking hw hc ho _)
    simp only [not_forall, not_not] at ho
    obtain ⟨i', r, rfl⟩ := ho
    cases hk : w.workers[i']? with
    | none =>
      simp only [stepCall, hk] at hleft
      cases hleft
    | some k =>
      have hlt : i' < w.workers.length := (List.getElem?_eq_some_iff.mp hk).1
      obtain ⟨⟨k', ns, p⟩, ht⟩ : ∃ t, r.step w.now k = t := ⟨_, rfl⟩
      simp only [stepCall, hk, ht] at hleft
      rcases p with r' | r' | e | e
      · cases hleft
        have hstep : w.step (.call j) = (((w.setWorker i k').notes ns).setCall j
            (.requesting i (.between n)), .running) := by
          simp only [step, hc', stepCall, hk, ht]
        refine ⟨by rw [hstep], r, k, k', ns, rfl, hk, ht, ?_⟩
        rw [move, hstep, setCall, notes_workers, setWorker, List.getElem?_set_self hlt]
      · cases hleft
        exact absurd rfl (request_waits (congrArg (·.2.2) ht) n)
      · cases hleft
      · cases hleft

theorem Poised.mover {m : Move} {ms : List Move} (h : w.Poised (m :: ms))
    (hc : (w.move m).call? j = some (.requesting i (.between (n + 1)))) : m = .step (.call j) := by
  by_contra hm
  cases move_leaves hw.proper hm with
  | stays call => exact hm (Move.eq_step (h j i n (call.symm.trans hc)))
  | drops move gone => cases gone.symm.trans hc
  | begins new call fresh =>
    cases call.symm.trans hc
    cases fresh i _ rfl

theorem Poised.move {m : Move} {ms : List Move} (h : w.Poised (m :: ms))
    (hk : w.KeepsThread m ms) : (w.move m).Poised ms := by
  intro j i n hc
  obtain rfl := h.mover hw hc
  exact hk _ rfl (between_running hw hc).1

theorem Poised.run {ms ms' : List Move} (h : w.Poised (ms ++ ms')) (hwhole : Whole (ms ++ ms') w) :
    (World.run ms w).Poised ms' := by
  induction ms generalizing w with
  | nil => exact h
  | cons m ms ih => exact ih (hw.move m) (h.move hw hwhole.1) hwhole.2

end

/-- In a run in which nobody loses the thread, no request on a worker that has stopped has had
its last attempt. -/
theorem whole_attempts (view : StoreView) (ops : List Store.Op) {ms : List Move}
    (hwhole : Whole ms (onStore view ops)) {i j : Nat} {r : Request}
    (hs : (run ms (onStore view ops)).Stopped i)
    (hc : (run ms (onStore view ops)).call? j = some (.requesting i r)) :
    r = .fresh ∨ r.Attempts := by
  have hw := onStore_regular view ops
  by_cases hfresh : r = .fresh
  · exact Or.inl hfresh
  refine Or.inr ⟨hfresh, fun n hn => Nat.lt_of_not_le fun hmax => ?_⟩
  obtain ⟨n, rfl⟩ : ∃ n', n = n' + 1 :=
    Nat.exists_eq_succ_of_ne_zero (Nat.ne_of_gt (Nat.lt_of_lt_of_le (by decide) hmax))
  subst hn
  rcases List.eq_nil_or_concat' ms with rfl | ⟨ms, m, rfl⟩
  · cases hc
  -- the last move is the step that ended the attempt, and it found the handoff open
  have hw' := hw.run ms
  have hp : (run ms (onStore view ops)).Poised [m] :=
    Poised.run hw (fun j i n h => by cases h) hwhole
  rw [run_append] at hs hc
  obtain rfl := hp.mover hw' hc
  obtain ⟨-, r, k, k', ns, -, -, ht, hk'⟩ := between_running hw' hc
  obtain ⟨k₁, hk₁, -, hcl⟩ := Stopped.closed (hw'.move _) hs
  cases hk'.symm.trans hk₁
  have hsees := Request.step_sees (run ms (onStore view ops)).now k r
  rw [ht] at hsees
  cases hsees with
  | goes same started opened =>
    have hclosed : k'.handoff.closed = k.handoff.closed := congrArg Phase.closed same
    rw [hcl, opened] at hclosed
    cases hclosed

end World

end TaskRelay
