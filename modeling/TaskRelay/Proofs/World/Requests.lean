import TaskRelay.Proofs.World.Farewell
import TaskRelay.Proofs.World.Takers
import TaskRelay.Proofs.Worker.Window
import TaskRelay.World.Scenario

/-!
# Requests under a clock

A request is under way for its window at most, and only at the very end of it is it told that
the queue is empty. The only request of a worker that is not being shut down returns the entry
that comes into the slot first without the clock moving, between two attempts as within one,
whatever became of the requests before it.
-/

set_option autoImplicit false

namespace TaskRelay

namespace World

inductive Asks (w : World) (i id t : Nat) : Prop
  | waits {r : Request} (call : w.call? id = some (.requesting i r)) (onTime : r.OnTime t w.now)
  | answered {time : Nat} {x : Except WorkerError Entry}
      (ended : w.ended? id = some ⟨id, time, .requested x⟩) (since : t ≤ time)
      (bound : time ≤ t + Request.window)
      (empty : x = .error .noTaskInQueue → time = t + Request.window)

section
variable {w : World} {i id t : Nat} {r : Request}

theorem request_progress {k : Worker} (hk : w.workers[i]? = some k) (id : Nat) (r : Request) :
    (w.stepCall id (.requesting i r)).2 =
      (r.step w.now k).2.2.within (.requesting i) .requested := by
  simp only [stepCall, hk]
  generalize r.step w.now k = s
  obtain ⟨k', ns, r' | r' | e | e⟩ := s <;> rfl

theorem request_woken {k : Worker} (hk : w.workers[i]? = some k)
    (call : w.call? id = some (.requesting i r)) : w.woken (.call id) = r.woken w.now k := by
  simp only [woken_call call, callWoken, hk]

section
variable (hw : w.Regular) {k : Worker} (hk : w.workers[i]? = some k)
  (call : w.call? id = some (.requesting i r))
include hw hk call

/-- A step after which a request is still under way. -/
theorem request_goes {r' : Request} (h : (r.step w.now k).2.2 = .running r' ∨
    (r.step w.now k).2.2 = .waiting r') :
    (w.move (.step (.call id))).call? id = some (.requesting i r') := by
  rw [(step_own hw.proper call).1, request_progress hk]
  rcases h with h | h <;> rw [h] <;> rfl

/-- A step with which a request returns. -/
theorem request_ends {x : Except WorkerError Entry} (h : (r.step w.now k).2.2 = .done x) :
    (w.move (.step (.call id))).ended? id = some ⟨id, w.now, .requested x⟩ := by
  refine ended?_own hw.proper call (hw.under_way (by rw [call]; simp)) ?_
  rw [request_progress hk, h]
  rfl

theorem waits_own (onTime : r.OnTime t w.now) : (w.move (.step (.call id))).Asks i id t := by
  have hnow := step_now hw.proper (.call id)
  have hp := onTime.step k
  generalize hstep : (r.step w.now k).2.2 = p at hp
  cases hp with
  | runs onTime' =>
    exact .waits (request_goes hw hk call (Or.inl hstep)) (hnow.symm ▸ onTime')
  | waits onTime' =>
    exact .waits (request_goes hw hk call (Or.inr hstep)) (hnow.symm ▸ onTime')
  | item | closed =>
    exact .answered (request_ends hw hk call hstep) onTime.since onTime.bound nofun
  | empty last =>
    exact .answered (request_ends hw hk call hstep) onTime.since onTime.bound fun _ => last

/-- A request stays on time while others go on, and while time passes. -/
theorem waits_other (onTime : r.OnTime t w.now) {m : Move} (ht : w.TimelyMove m)
    (hm : m ≠ .step (.call id)) (hd : m ≠ .drop id) :
    (w.move m).call? id = some (.requesting i r) ∧ r.OnTime t (w.move m).now := by
  refine ⟨call_kept hw.proper hw.filed call hm fun he => absurd he hd, ?_⟩
  rcases move_now hw.proper m with ⟨millis, rfl⟩ | hnow
  · obtain ⟨asleep, inTime⟩ := Lull.call ht call
    simp only [callWoken, hk] at asleep
    refine onTime.wait asleep fun d hd => inTime d ?_
    simpa [callDeadlines] using hd
  · exact hnow.symm ▸ onTime

end

structure Asking (w : World) (i id t : Nat) (ms : List Move) : Prop where
  regular : w.Regular
  worker : ∃ k, w.workers[i]? = some k
  timed : Timed ms w
  undropped : .drop id ∉ ms
  asks : w.Asks i id t

theorem Asking.onTime {ms : List Move} (h : w.Asking i id t ms)
    (call : w.call? id = some (.requesting i r)) : r.OnTime t w.now := by
  cases h.asks with
  | waits call' onTime =>
    cases call.symm.trans call'
    exact onTime
  | answered ended =>
    rw [h.regular.under_way (by rw [call]; simp)] at ended
    cases ended

/-- A request waits on while others go on. -/
theorem Asking.kept {m : Move} {ms : List Move} (h : w.Asking i id t (m :: ms))
    (call : w.call? id = some (.requesting i r)) (hm : m ≠ .step (.call id)) :
    (w.move m).call? id = some (.requesting i r) ∧ r.OnTime t (w.move m).now := by
  obtain ⟨k, hk⟩ := h.worker
  have hd : m ≠ .drop id := fun he => h.undropped (he ▸ List.mem_cons_self)
  exact waits_other h.regular hk call (h.onTime call) h.timed.1 hm hd

theorem Asking.move {m : Move} {ms : List Move} (h : w.Asking i id t (m :: ms)) :
    (w.move m).Asking i id t ms := by
  obtain ⟨k, hk⟩ := h.worker
  obtain ⟨k', hk', -⟩ := h.regular.forward hk m
  refine ⟨h.regular.move m, ⟨k', hk'⟩, h.timed.2,
    fun hd => h.undropped (List.mem_cons_of_mem _ hd), ?_⟩
  cases h.asks with
  | waits call onTime =>
    by_cases hm : m = .step (.call id)
    · exact hm ▸ waits_own h.regular hk call onTime
    · obtain ⟨call', onTime'⟩ := h.kept call hm
      exact .waits call' onTime'
  | answered ended since bound empty =>
    exact .answered (ended?_move h.regular.proper ended m) since bound empty

theorem Asking.run {ms ms' : List Move} (h : w.Asking i id t (ms ++ ms')) :
    (World.run ms w).Asking i id t ms' := by
  induction ms generalizing w with
  | nil => exact h
  | cons m ms ih => exact ih h.move

/-- The clock stands still for a request that can go on. -/
theorem Asking.still {m : Move} {ms : List Move} (h : w.Asking i id t (m :: ms)) {k : Worker}
    (hk : w.workers[i]? = some k) (call : w.call? id = some (.requesting i r))
    (awake : r.woken w.now k = true) (hm : m ≠ .step (.call id)) :
    (w.move m).call? id = some (.requesting i r) ∧ (w.move m).now = w.now := by
  have hwoken : w.woken (.call id) = true := (request_woken hk call).trans awake
  exact ⟨(h.kept call hm).1, still_now h.regular hwoken h.timed.1⟩

inductive Overdue (w : World) (i id t n : Nat) : Prop
  | waits {r : Request} (call : w.call? id = some (.requesting i r))
      (late : w.now = t + Request.window) (few : r.overdue ≤ n)
  | answered {x : Except WorkerError Entry}
      (ended : w.EndedIn id t (t + Request.window) (.requested x))

theorem Overdue.move {n : Nat} {m : Move} {ms : List Move} (h : w.Overdue i id t n)
    (ha : w.Asking i id t (m :: ms)) :
    (w.move m).Overdue i id t (n - if m.isStepOf (.call id) then 1 else 0) := by
  cases h with
  | @waits r call late few =>
    obtain ⟨k, hk⟩ := ha.worker
    have onTime := ha.onTime call
    rw [late] at onTime
    by_cases hm : m.isStepOf (.call id) = true
    · obtain rfl := Move.eq_step hm
      rw [if_pos hm]
      have hstep := onTime.late_step k
      rw [← late] at hstep
      rcases hstep with ⟨x, hx⟩ | ⟨r', hr', hless⟩
      · have ended := request_ends ha.regular hk call hx
        exact .answered ⟨w.now, late ▸ onTime.since, Nat.le_of_eq late, ended⟩
      · exact .waits (request_goes ha.regular hk call (Or.inl hr'))
          ((step_now ha.regular.proper _).trans late) (by omega)
    · rw [if_neg hm]
      have awake : r.woken w.now k = true := late ▸ onTime.late_woken k
      obtain ⟨call', hnow⟩ := ha.still hk call awake fun he => hm (by simp [he])
      exact .waits call' (hnow.trans late) few
  | answered ended => exact .answered (endedIn_move ha.regular.proper ended m)

/-- Two steps after its window is over a request has returned. -/
theorem Asking.overdue {ms : List Move} (h : w.Asking i id t ms)
    (late : w.now = t + Request.window) (hsteps : 2 ≤ ms.countP (Move.isStepOf (.call id))) :
    ∃ x, (World.run ms w).EndedIn id t (t + Request.window) (.requested x) := by
  have hover : w.Overdue i id t 2 := by
    cases h.asks with
    | @waits r call onTime => exact .waits call late (by cases r <;> simp [Request.overdue])
    | answered ended since bound => exact .answered ⟨_, since, bound, ended⟩
  obtain ⟨-, hend⟩ := run_countdown (a := .call id)
    (P := fun w ms n => w.Asking i id t ms ∧ w.Overdue i id t n)
    (fun w m ms n h => ⟨h.1.move, h.2.move h.1⟩) ⟨h, hover⟩
  cases hend with
  | @waits r call late few =>
    have hpos := r.overdue_pos
    omega
  | answered ended => exact ⟨_, ended⟩

/-- How the request `id` stands that was called at `t` and whose window is over at `last`. -/
structure InWindow (w : World) (id t last : Nat) : Prop where
  due : (∃ x, w.EndedIn id t last (.requested x)) ∨ (w.call? id ≠ none ∧ t ≤ w.now ∧ w.now ≤ last)
  empty : ∀ time, w.ended? id = some ⟨id, time, .requested (.error .noTaskInQueue)⟩ → time = last
  pressed : w.call? id ≠ none → w.woken (.call id) = true ∨
    ∃ d ∈ w.deadlines, w.now < d ∧ d ≤ last
  ends : w.now = last → ∀ ms, Timed ms w → .drop id ∉ ms →
    2 ≤ ms.countP (Move.isStepOf (.call id)) →
    ∃ x, (run ms w).EndedIn id t last (.requested x)

theorem Asking.inWindow {ms : List Move} (h : w.Asking i id t ms) :
    w.InWindow id t (t + Request.window) := by
  refine ⟨?_, fun time he => ?_, fun hn => ?_, fun late ms ht hd hsteps =>
    Asking.overdue ⟨h.regular, h.worker, ht, hd, h.asks⟩ late hsteps⟩
  · cases h.asks with
    | waits call onTime => exact Or.inr ⟨by simp [call], onTime.since, onTime.bound⟩
    | answered ended since bound => exact Or.inl ⟨_, _, since, bound, ended⟩
  · cases h.asks with
    | waits call =>
      rw [h.regular.under_way (by rw [call]; simp)] at he
      cases he
    | answered ended since bound empty =>
      cases ended.symm.trans he
      exact empty rfl
  · cases h.asks with
    | waits call onTime =>
      obtain ⟨k, hk⟩ := h.worker
      rcases onTime.pressed k with hwoken | ⟨d, hd, hlt, hle⟩
      · exact Or.inl ((request_woken hk call).trans hwoken)
      · refine Or.inr ⟨d, mem_deadlines call ?_, hlt, hle⟩
        simpa [callDeadlines] using hd
    | answered ended =>
      rw [h.regular.under_way hn] at ended
      cases ended

end

structure Alone (w : World) (i id : Nat) (ms : List Move) : Prop where
  only : ∀ n j r, (run (ms.take n) w).call? j = some (.requesting i r) → j = id
  calm : ¬(run ms w).Over i

structure Tidy (w : World) (i : Nat) : Prop where
  fit : ∀ q, (w.flow q).Fit
  attended : w.Attended i

theorem onStore_tidy (view : StoreView) (ops : List Store.Op) (i : Nat) :
    (onStore view ops).Tidy i :=
  ⟨fun q => (onStore_account view ops q).fit, [], fun _ => rfl, Handoff.empty_attends⟩

section
variable {w : World} {i id t : Nat}

theorem Over.run (hw : w.Regular) (h : w.Over i) (ms : List Move) : (World.run ms w).Over i := by
  induction ms generalizing w with
  | nil => exact h
  | cons m ms ih => exact ih (hw.move m) (h.move hw m)

theorem Alone.move {m : Move} {ms : List Move} (h : w.Alone i id (m :: ms)) :
    (w.move m).Alone i id ms :=
  ⟨fun n => h.only (n + 1), h.calm⟩

theorem Alone.calm_now {ms : List Move} (h : w.Alone i id ms) (hw : w.Regular) : ¬w.Over i :=
  fun ho => h.calm (ho.run hw ms)

theorem Tidy.move (h : w.Tidy i) (hw : w.Regular) (m : Move) : (w.move m).Tidy i := by
  refine ⟨fun q => ?_, (move_handles hw i m).attended h.attended⟩
  obtain ⟨f, hf, hs⟩ := (move_follows hw.proper m).flow q
  exact hs.fit (hf.fit (h.fit q))

theorem Tidy.run (h : w.Tidy i) (hw : w.Regular) (ms : List Move) : (World.run ms w).Tidy i := by
  induction ms generalizing w with
  | nil => exact h
  | cons m ms ih => exact ih (h.move hw m) (hw.move m)

theorem Tidy.station (h : w.Tidy i) (k : Worker) (hk : w.workers[i]? = some k) :
    Station.Fit ⟨k.consumer.stage, k.handoff.slot⟩ := by
  have hst := flow_station hk k.queue
  rw [Worker.station_own rfl] at hst
  exact h.fit k.queue _ (List.mem_of_getElem? hst)

end

inductive Unserved (w : World) (i id t : Nat) : Prop
  | waits {r : Request} (call : w.call? id = some (.requesting i r))
  | late (past : t + Request.window ≤ w.now)

inductive Served (w : World) (i id u : Nat) (e : Entry) (n : Nat) : Prop
  | waits {r : Request} (call : w.call? id = some (.requesting i r)) (now : w.now = u)
      (slot : (w.handoffOf i).slot = some e) (few : r.unserved ≤ n)
  | got (ended : w.EndedIn id u u (.requested (.ok e)))

section
variable {w : World} {i id t u : Nat} {e : Entry} {m : Move} {ms : List Move}

theorem Unserved.move (h : w.Unserved i id t) (ha : w.Asking i id t (m :: ms))
    (hal : w.Alone i id (m :: ms)) (hs : (w.handoffOf i).slot = none) :
    (w.move m).Unserved i id t := by
  have hw := ha.regular
  cases h with
  | @waits r call =>
    obtain ⟨k, hk⟩ := ha.worker
    rw [handoffOf_some hk] at hs
    have opened := hw.opened (hal.calm_now hw)
    rw [handoffOf_some hk] at opened
    have onTime := ha.onTime call
    by_cases hm : m = .step (.call id)
    · subst hm
      have hp := onTime.step k
      generalize hstep : (r.step w.now k).2.2 = p at hp
      cases hp with
      | runs => exact .waits (request_goes hw hk call (Or.inl hstep))
      | waits => exact .waits (request_goes hw hk call (Or.inr hstep))
      | item _ slot =>
        rw [hs] at slot
        cases slot
      | closed shut =>
        rw [opened] at shut
        cases shut
      | empty last => exact .late (by rw [step_now hw.proper, last])
    · exact .waits (ha.kept call hm).1
  | late past => exact .late (Nat.le_trans past (move_now_le hw m))

/-- As long as the slot is empty, nothing but the end of its window ends a request. -/
theorem Unserved.run {mid post : List Move} (h : w.Unserved i id t)
    (ha : w.Asking i id t (mid ++ post)) (hal : w.Alone i id (mid ++ post))
    (hs : ∀ n < mid.length, ((World.run (mid.take n) w).handoffOf i).slot = none) :
    (World.run mid w).Unserved i id t ∧ (World.run mid w).Asking i id t post ∧
      (World.run mid w).Alone i id post := by
  induction mid generalizing w with
  | nil => exact ⟨h, ha, hal⟩
  | cons m mid ih =>
    have hslot : (w.handoffOf i).slot = none := hs 0 (Nat.zero_lt_succ _)
    exact ih (h.move ha hal hslot) ha.move hal.move fun n hn => hs (n + 1) (Nat.succ_lt_succ hn)

/-- Whoever waits while an entry lies in the slot was called. -/
theorem Tidy.called (h : w.Tidy i) (ha : w.Asking i id t ms) (hal : w.Alone i id ms) {k : Worker}
    (hk : w.workers[i]? = some k) (slot : (w.handoffOf i).slot = some e) {n : Nat} {tk : Take}
    (call : w.call? id = some (.requesting i (.taking n tk))) :
    k.handoff.offered.isCalled tk.ticket = true := by
  have opened := ha.regular.opened (hal.calm_now ha.regular)
  have hcalled := h.attended.called opened slot call (hal.only 0)
  rwa [handoffOf_some hk] at hcalled

theorem Tidy.awake (h : w.Tidy i) (ha : w.Asking i id t ms) (hal : w.Alone i id ms) {k : Worker}
    (hk : w.workers[i]? = some k) (slot : (w.handoffOf i).slot = some e) {r : Request}
    (call : w.call? id = some (.requesting i r)) : r.woken w.now k = true := by
  cases r with
  | taking n tk => simp [Request.woken, Take.woken, h.called ha hal hk slot call]
  | _ => rfl

theorem Served.move {n : Nat} (h : w.Served i id u e n) (early : u < t + Request.window)
    (ha : w.Asking i id t (m :: ms)) (hal : w.Alone i id (m :: ms)) (ht : w.Tidy i) :
    (w.move m).Served i id u e (n - if m.isStepOf (.call id) then 1 else 0) := by
  have hw := ha.regular
  cases h with
  | @waits r call now slot few =>
    obtain ⟨k, hk⟩ := ha.worker
    by_cases hm : m.isStepOf (.call id) = true
    · obtain rfl := Move.eq_step hm
      rw [if_pos hm]
      have hnow := step_now hw.proper (.call id)
      by_cases hr : r = .fresh
      · subst hr
        refine .waits (request_goes hw hk call (Or.inl rfl)) (hnow.trans now) ?_
          (Nat.le_sub_one_of_lt few)
        rw [request_handoff i hk call, Request.step, Request.spawn_handoff, ← handoffOf_some hk]
        exact slot
      · have opened := hw.opened (hal.calm_now hw)
        rw [handoffOf_some hk] at opened
        have hgets := (ha.onTime call).gets hr (now ▸ early) opened (handoffOf_some hk ▸ slot)
          fun n tk hr => ht.called ha hal hk slot (hr ▸ call)
        exact .got ⟨w.now, now.ge, now.le, request_ends hw hk call hgets⟩
    · rw [if_neg hm]
      have hother : m ≠ .step (.call id) := fun he => hm (by simp [he])
      obtain ⟨call', hnow⟩ := ha.still hk call (ht.awake ha hal hk slot call) hother
      exact .waits call' (hnow.trans now)
        (hw.slot_kept (hal.move.calm_now (hw.move m)) ht.station (hal.only 0) hother slot) few
  | got ended => exact .got (endedIn_move hw.proper ended m)

end

/-- The request `id` returns the entry `e` without the clock moving, with its second step at the
latest. -/
structure Obtains (w : World) (id : Nat) (e : Entry) (ms : List Move) : Prop where
  due : (run ms w).EndsBy id w.now w.now (.requested (.ok e))
  woken : (run ms w).call? id ≠ none → (run ms w).woken (.call id) = true
  ends : 2 ≤ ms.countP (Move.isStepOf (.call id)) →
    (run ms w).EndedIn id w.now w.now (.requested (.ok e))

section
variable {w : World} {i id t : Nat} {e : Entry} {ms : List Move}

theorem Asking.obtains (ha : w.Asking i id t ms) (hal : w.Alone i id ms) (ht : w.Tidy i)
    {r : Request} (call : w.call? id = some (.requesting i r))
    (slot : (w.handoffOf i).slot = some e) (early : w.now < t + Request.window) :
    w.Obtains id e ms := by
  have hserved : w.Served i id w.now e 2 :=
    .waits call rfl slot (by cases r <;> simp [Request.unserved])
  obtain ⟨ha', hal', ht', hend⟩ := run_countdown (a := .call id)
    (P := fun v ms n => v.Asking i id t ms ∧ v.Alone i id ms ∧ v.Tidy i ∧ v.Served i id w.now e n)
    (fun v m ms n ⟨ha, hal, ht, h⟩ =>
      ⟨ha.move, hal.move, ht.move ha.regular m, h.move early ha hal ht⟩) ⟨ha, hal, ht, hserved⟩
  refine ⟨?_, fun hn => ?_, fun hsteps => ?_⟩
  · cases hend with
    | waits call now => exact Or.inr ⟨by simp [call], now.ge, now.le⟩
    | got ended => exact Or.inl ended
  · cases hend with
    | @waits r call now slot =>
      obtain ⟨k, hk⟩ := ha'.worker
      exact (request_woken hk call).trans (ht'.awake ha' hal' hk slot call)
    | got ended => exact absurd (ha'.regular.under_way hn) ended.ne_none
  · cases hend with
    | @waits r call now slot few =>
      have hpos := r.unserved_pos
      omega
    | got ended => exact ended

end

/-- The request that is called in `w` on worker `i`, whatever happened before and whatever anybody
does afterwards, as long as its caller does not drop it. It returns within its window of five
seconds, and is told that the queue is empty when its window is over and not before: until then it
can go on or waits for a time within its window, and at the end of it it takes two more steps at
most. If it is the only request on its worker and no shutdown begins, it returns the first entry
that comes into the slot, or was there already, without the clock moving: it can go on from that
moment and takes two more steps at most. The reply is the task of that entry. -/
theorem request_in_window (view : StoreView) (ops : List Store.Op) (pre ms : List Move) (i : Nat)
    {w w₀ : World} (reached : w = run pre (onStore view ops)) (worker : i < w.workers.length)
    (called : w₀ = w.move (.request i)) (timed : Timed ms w₀) (undropped : .drop w.nextCall ∉ ms) :
    (run ms w₀).InWindow w.nextCall w.now (w.now + 5000) ∧
    (w₀.Alone i w.nextCall ms → ∀ mid post e w₁, ms = mid ++ post → w₁ = run mid w₀ →
      (∀ n < mid.length, ((run (mid.take n) w₀).handoffOf i).slot = none) →
      (w₁.handoffOf i).slot = some e → w₁.now < w.now + 5000 →
      w₁.Obtains w.nextCall e post ∧
      ∀ k name, w₁.workers[i]? = some k →
        Scenario.replyOf (.request name) (.requested (.ok e)) = .task (k.taskOf e).2) := by
  have hw : w.Regular := reached ▸ (onStore_regular view ops).run pre
  have htidy : w.Tidy i :=
    reached ▸ (onStore_tidy view ops i).run (onStore_regular view ops) pre
  obtain ⟨k, hk⟩ : ∃ k, w.workers[i]? = some k := ⟨_, List.getElem?_eq_getElem worker⟩
  subst called
  have call : (w.move (.request i)).call? w.nextCall = some (.requesting i .fresh) :=
    begin_same w _
  have hasks : (w.move (.request i)).Asks i w.nextCall w.now := .waits call (.fresh rfl)
  have asking : (w.move (.request i)).Asking i w.nextCall w.now ms :=
    ⟨hw.move _, ⟨k, hk⟩, timed, undropped, hasks⟩
  have asking' : (w.move (.request i)).Asking i w.nextCall w.now (ms ++ []) := by
    rwa [List.append_nil]
  refine ⟨asking'.run.inWindow, ?_⟩
  rintro alone mid post e w₁ rfl rfl empty slot early
  obtain ⟨hunserved, hasking, halone⟩ := Unserved.run (.waits call) asking alone empty
  have htidy₁ := (htidy.move hw (.request i)).run (hw.move _) mid
  refine ⟨?_, fun k name hk => ?_⟩
  · cases hunserved with
    | waits call₁ => exact hasking.obtains halone htidy₁ call₁ slot early
    | late past => exact absurd early (Nat.not_lt.mpr past)
  · rw [taskOf_task]
    rfl

/-- The only request under way, told from all calls under way. -/
theorem alone_of_calls {w : World} {i id : Nat} {ms : List Move}
    (only : ∀ n ≤ ms.length, ∀ p ∈ (run (ms.take n) w).calls, p.2.asked? = some i → p.1 = id)
    (calm : ((run ms w).workers[i]?.map fun k => k.lifecycle.isOver) = some false) :
    w.Alone i id ms := by
  refine ⟨fun n j r hc => ?_, fun ⟨k, hk, ho⟩ => ?_⟩
  · have hn : ms.take n = ms.take (min n ms.length) := by simp [← List.take_take]
    rw [hn] at hc
    exact only _ (Nat.min_le_right _ _) _ (Table.mem_of_get? hc) rfl
  · rw [hk, Option.map_some, ho] at calm
    cases calm

def forsaken : List Move := [
  .create (.named "tasks" "crew" "first") (.scripted "none"), .request 0,
  .step (.call 0), .step (.call 0), .step (.loop 0), .step (.loop 0), .wait 300, .drop 0]

def lateEntry : List Move := [
  .step (.call 1), .step (.call 1), .wait 1000, .step (.call 1),
  .add "tasks" [("body", "late")] 0, .step (.call 2), .step (.loop 0), .step (.loop 0)]

theorem late_entry_returned :
    let w := run forsaken (onStore ⟨1, false⟩ [])
    let w₀ := w.move (.request 0)
    let w₁ := run lateEntry w₀
    let post := [Move.step (.call 1), .step (.call 1)]
    (w.now = 300 ∧ w.nextCall = 1 ∧ w₁.now = 1300) ∧
    (Timed (lateEntry ++ post) w₀ ∧ .drop 1 ∉ lateEntry ++ post) ∧
    w₀.Alone 0 1 (lateEntry ++ post) ∧ (run (lateEntry ++ post) w₀).InWindow 1 300 5300 ∧
    ∃ e, (w₁.handoffOf 0).slot = some e ∧ w₁.Obtains 1 e post ∧
      (run post w₁).EndedIn 1 1300 1300 (.requested (.ok e)) := by
  intro w w₀ w₁ post
  have hnow : w.now = 300 := by decide +kernel
  have hnext : w.nextCall = 1 := by decide +kernel
  have hnow₁ : w₁.now = 1300 := by decide +kernel
  have timed : Timed (lateEntry ++ post) w₀ := by decide +kernel
  have undropped : .drop 1 ∉ lateEntry ++ post := by simp [lateEntry, post]
  have alone : w₀.Alone 0 1 (lateEntry ++ post) :=
    alone_of_calls (by decide +kernel) (by decide +kernel)
  have empty : ∀ n < lateEntry.length, ((run (lateEntry.take n) w₀).handoffOf 0).slot = none := by
    decide +kernel
  obtain ⟨e, slot⟩ : ∃ e, (w₁.handoffOf 0).slot = some e :=
    Option.isSome_iff_exists.mp (by decide +kernel)
  have h := request_in_window (w := w) ⟨1, false⟩ [] forsaken (lateEntry ++ post) 0 rfl
    (by decide +kernel) rfl timed (hnext ▸ undropped)
  rw [hnext, hnow] at h
  obtain ⟨inWindow, obtains⟩ := h
  have got := (obtains alone lateEntry post e w₁ rfl rfl empty slot
    (by rw [hnow₁]; decide)).1
  exact ⟨⟨hnow, hnext, hnow₁⟩, ⟨timed, undropped⟩, alone, inWindow, e, slot, got,
    hnow₁ ▸ got.ends (Nat.le_refl 2)⟩

end World

end TaskRelay
