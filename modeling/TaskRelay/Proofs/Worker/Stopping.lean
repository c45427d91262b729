import TaskRelay.Proofs.World.Clock
import TaskRelay.Proofs.World.Signals

/-!
# A stopped loop on its way to its end

A loop that was told to stop takes only so many more steps. It waits for nobody but the
additions with which it gives back its entries, so with none to give back, or on a store whose
additions take no time, it is at its end before the clock moves.
-/

set_option autoImplicit false

namespace TaskRelay

theorem Addition.resume_due (a : Addition) {now : Nat} (s : Store) (h : a.due ≤ now) :
    ∃ s' r, a.resume now s = (s', .done r) := by
  unfold resume
  rw [if_neg (Nat.not_lt.mpr h)]
  split
  · exact ⟨_, _, rfl⟩
  · exact ⟨_, _, rfl⟩

def Consumer.left : Consumer → Nat
  | .spawned => 2
  | .top | .reading _ | .pausing _ => 1
  | .requeueing es => 2 * es.length + 1
  | .adding _ _ rest | .holding rest => 2 * rest.length + 2
  | .acking _ rest => 2 * rest.length + 3
  | .offering _ _ rest => 2 * rest.length + 4

def LoopState.left : LoopState → Nat
  | .active c => c.left
  | _ => 0

theorem LoopState.left_zero {l : LoopState} (h : l.left = 0) : l.isActive = false := by
  cases l with
  | active c => cases c <;> simp [left, Consumer.left] at h
  | _ => rfl

def Consumer.Hurries (fast : Prop) (now : Nat) (c : Consumer) : Prop :=
  c.stage = .idle ∨ (fast ∧ ∀ a id rest, c = .adding a id rest → a.due ≤ now)

namespace Consumer

variable {fast : Prop} {now : Nat} {c : Consumer}

theorem Hurries.woken (h : c.Hurries fast now) (store : Store) (handoff : Handoff Entry) :
    c.woken now true store handoff = true := by
  cases c with
  | adding a id rest =>
    rcases h with h | ⟨-, h⟩
    · cases h
    · exact decide_eq_true (h a id rest rfl)
  | _ => rfl

/-- A step of a stopped loop that hurries brings it nearer to its end, and it still hurries. -/
theorem Hurries.step (h : c.Hurries fast now) (cfg : StreamSettings) (view : StoreView)
    {store : Store} (hf : fast → store.addDelay = 0) (handoff : Handoff Entry) :
    (c.step cfg view now true store handoff).state.left < c.left ∧
      ∀ c', (c.step cfg view now true store handoff).state = .active c' → c'.Hurries fast now := by
  have slow (hc : c.stage ≠ .idle) : fast := (h.resolve_left hc).1
  have calm {c' : Consumer} (hfast : fast) (hc : ∀ a id rest, c' ≠ .adding a id rest) :
      c'.Hurries fast now := Or.inr ⟨hfast, fun a id rest he => absurd he (hc a id rest)⟩
  cases c with
  | spawned =>
    refine ⟨Nat.lt_succ_self 1, fun c' hc' => ?_⟩
    cases hc'
    exact Or.inl rfl
  | top | reading | pausing => exact ⟨Nat.lt_succ_self 0, fun c' hc' => by cases hc'⟩
  | holding batch =>
    cases batch with
    | nil =>
      refine ⟨Nat.lt_succ_self 1, fun c' hc' => ?_⟩
      cases hc'
      exact Or.inl rfl
    | cons e rest =>
      refine ⟨?_, fun c' hc' => ?_⟩
      · simp only [Consumer.step, Handoff.beginOffer, Handoff.watchSlot, Handoff.reclaim]
        simp [afterOffer, ConsumerStep.state, LoopState.left, left]
      · cases hc'
        exact calm (slow (by simp [stage])) (by simp)
  | offering o id rest =>
    have hfast : fast := slow (by simp [stage])
    simp only [Consumer.step, Offer.resume, if_true, Handoff.reclaim]
    split
    · refine ⟨?_, fun c' hc' => ?_⟩
      · simp [afterOffer, ConsumerStep.state, LoopState.left, left]
        omega
      · cases hc'
        exact calm hfast (by simp)
    · refine ⟨Nat.lt_succ_self _, fun c' hc' => ?_⟩
      cases hc'
      exact calm hfast (by simp)
  | acking id rest =>
    refine ⟨Nat.lt_succ_self _, fun c' hc' => ?_⟩
    cases hc'
    exact calm (slow (by simp [stage])) (by simp)
  | requeueing batch =>
    cases batch with
    | nil => exact ⟨Nat.lt_succ_self 0, fun c' hc' => by cases hc'⟩
    | cons e rest =>
      have hfast : fast := slow (by simp [stage])
      refine ⟨?_, fun c' hc' => ?_⟩
      · simp [Consumer.step, ConsumerStep.state, LoopState.left, left]
        omega
      · cases hc'
        refine Or.inr ⟨hfast, fun a id rest he => ?_⟩
        cases he
        exact Nat.le_of_eq (congrArg (now + ·) (hf hfast))
  | adding a id rest =>
    obtain ⟨hfast, hdue⟩ := h.resolve_left (by simp [stage])
    obtain ⟨s, r, he⟩ := a.resume_due store (hdue a id rest rfl)
    simp only [Consumer.step, he]
    refine ⟨Nat.lt_succ_self _, fun c' hc' => ?_⟩
    cases hc'
    exact calm hfast (by simp)

end Consumer

namespace Post

variable {p q : Post} {es : List Event} {f : Phase}

/-- While its loop takes no step, a worker that was told to stop keeps it or loses it. -/
theorem Step.settles (hs : p.Step es q) (hn : .looped ∉ es) (hf : p.phase = some f)
    (ho : f.lifecycle.isOver = true) : ∃ f', q.phase = some f' ∧ f'.lifecycle.isOver = true ∧
      (f'.loop = f.loop ∨ f'.loop.isActive = false) := by
  cases hs with
  | created settings none => cases none.symm.trans hf
  | ended phase active how =>
    cases hf.symm.trans phase
    exact ⟨_, rfl, ho, Or.inr (by rcases how with rfl | rfl <;> rfl)⟩
  | spawned phase first =>
    cases hf.symm.trans phase
    rw [first] at ho
    cases ho
  | looped => simp at hn
  | tried phase call first =>
    cases hf.symm.trans phase
    rw [first] at ho
    cases ho
  | stopped phase =>
    cases hf.symm.trans phase
    exact ⟨_, rfl, rfl, Or.inl rfl⟩
  | _ => exact ⟨f, hf, ho, Or.inl rfl⟩

theorem Run.settles (hr : Run p es q) (hn : .looped ∉ es) (hf : p.phase = some f)
    (ho : f.lifecycle.isOver = true) : ∃ f', q.phase = some f' ∧ f'.lifecycle.isOver = true ∧
      (f'.loop = f.loop ∨ f'.loop.isActive = false) := by
  induction hr generalizing f with
  | nil => exact ⟨f, hf, ho, Or.inl rfl⟩
  | cons hs _ ih =>
    rw [List.mem_append, not_or] at hn
    obtain ⟨f₁, hf₁, ho₁, h₁⟩ := hs.settles hn.1 hf ho
    obtain ⟨f₂, hf₂, ho₂, h₂⟩ := ih hn.2 hf₁ ho₁
    refine ⟨f₂, hf₂, ho₂, h₂.elim (fun he => ?_) Or.inr⟩
    rwa [he]

end Post

namespace World

def Move.agent? : Move → Option Agent
  | .step a => some a
  | _ => none

def Move.isStepOf (a : Agent) (m : Move) : Bool := m.agent? = some a

@[simp]
theorem Move.isStepOf_step (a : Agent) : (Move.step a).isStepOf a = true :=
  decide_eq_true rfl

theorem Move.eq_step {a : Agent} {m : Move} (h : m.isStepOf a = true) : m = .step a := by
  cases m with
  | step b => rw [Option.some.inj (of_decide_eq_true h)]
  | _ => cases h

/-- What each step of an agent lowers and no other move raises is lowered by its steps in a
run. -/
theorem run_countdown {a : Agent} {P : World → List Move → Nat → Prop}
    (hstep : ∀ w m ms n, P w (m :: ms) n →
      P (w.move m) ms (n - if m.isStepOf a then 1 else 0))
    {w : World} {ms : List Move} {n : Nat} (h : P w ms n) :
    P (run ms w) [] (n - ms.countP (Move.isStepOf a)) := by
  induction ms generalizing w n with
  | nil => exact h
  | cons m ms ih =>
    rw [List.countP_cons, Nat.add_comm, ← Nat.sub_sub]
    exact ih (hstep w m ms n h)

def Unslowed (w : World) (ms : List Move) : Prop :=
  w.store.addDelay = 0 ∧ ∀ millis, .delayAdds millis ∈ ms → millis = 0

def Hurries (w : World) (i : Nat) (ms : List Move) : Prop :=
  ∀ k c, w.workers[i]? = some k → k.consumer = .active c → c.Hurries (w.Unslowed ms) w.now

def Over (w : World) (i : Nat) : Prop :=
  ∃ k, w.workers[i]? = some k ∧ k.lifecycle.isOver = true

def Stopped (w : World) (i : Nat) : Prop :=
  ∃ k, w.workers[i]? = some k ∧ k.lifecycle = .stopped

section
variable {w : World} (hw : w.Regular) {i : Nat}
include hw

theorem Unslowed.move {m : Move} {ms : List Move} (h : w.Unslowed (m :: ms)) :
    (w.move m).Unslowed ms := by
  refine ⟨?_, fun millis hm => h.2 millis (List.mem_cons_of_mem _ hm)⟩
  by_cases hm : ∃ millis, m = .delayAdds millis
  · obtain ⟨millis, rfl⟩ := hm
    exact h.2 millis List.mem_cons_self
  · rw [move_addDelay hw.proper fun millis he => hm ⟨millis, he⟩]
    exact h.1

theorem move_now_le (m : Move) : w.now ≤ (w.move m).now := by
  rcases move_now hw.proper m with ⟨millis, rfl⟩ | h
  · exact Nat.le_add_right _ _
  · exact Nat.le_of_eq h.symm

/-- The clock stands still while somebody can go on. -/
theorem still_now {a : Agent} (ha : w.woken a = true) {m : Move} (ht : w.TimelyMove m) :
    (w.move m).now = w.now := by
  refine (move_now hw.proper m).resolve_left ?_
  rintro ⟨millis, rfl⟩
  rw [Lull.still ht] at ha
  cases ha

theorem Over.move (ho : w.Over i) (m : Move) : (w.move m).Over i := by
  obtain ⟨k, hk, ho⟩ := ho
  exact hw.isOver hk ho m

theorem Stopped.move (h : w.Stopped i) (m : Move) : (w.move m).Stopped i := by
  obtain ⟨k, hk, hs⟩ := h
  obtain ⟨k', hk', hle⟩ := hw.forward hk m
  refine ⟨k', hk', ?_⟩
  rw [hs] at hle
  cases hl : k'.lifecycle with
  | stopped => rfl
  | _ => simp [hl, Lifecycle.rank] at hle

theorem Stopped.closed (h : w.Stopped i) :
    ∃ k, w.workers[i]? = some k ∧ k.lifecycle = .stopped ∧ k.handoff.closed = true := by
  obtain ⟨k, hk, hs⟩ := h
  obtain ⟨es, hl⟩ := hw.lived i
  exact ⟨k, hk, hs, (hl.reached _ (post_phase i w hk)).closed.mpr hs⟩

theorem Spares.settles {m : Move} (hm : w.Spares i m) {k : Worker} (hk : w.workers[i]? = some k)
    (ho : k.lifecycle.isOver = true) : ∃ k', (w.move m).workers[i]? = some k' ∧
      (k'.consumer = k.consumer ∨ k'.consumer.isActive = false) := by
  by_cases h : m = .step (.loop i)
  · subst h
    rw [move_idle (hm rfl)]
    exact ⟨k, hk, Or.inl rfl⟩
  · obtain ⟨es, hl⟩ := hw.lived i
    obtain ⟨f, hf, -, hloop⟩ :=
      (move_run hw.proper hl m).settles (events_unlooped h) (post_phase i w hk) ho
    obtain ⟨k', hk', rfl⟩ := Option.map_eq_some_iff.mp hf
    exact ⟨k', hk', hloop⟩

/-- A step of a stopped loop that hurries. -/
theorem Hurries.own {ms : List Move} (h : w.Hurries i (.step (.loop i) :: ms)) {k : Worker}
    (hk : w.workers[i]? = some k) (ho : k.lifecycle.isOver = true) {c : Consumer}
    (hc : k.consumer = .active c) : (w.loopStep k c).state.left < c.left ∧
      ∀ c', (w.loopStep k c).state = .active c' →
        c'.Hurries ((w.move (.step (.loop i))).Unslowed ms) w.now := by
  have hstep := (h k c hk hc).step k.settings w.view (fun hf => hf.1) k.handoff
  rw [← ho, ← hw.stop_heard hk] at hstep
  refine ⟨hstep.1, fun c' hc' => ?_⟩
  rcases hstep.2 c' hc' with hidle | ⟨hfast, hdue⟩
  · exact Or.inl hidle
  · exact Or.inr ⟨hfast.move hw, hdue⟩

theorem Hurries.move {m : Move} {ms : List Move} (h : w.Hurries i (m :: ms)) (ho : w.Over i) :
    (w.move m).Hurries i ms := by
  intro k' c' hk' hc'
  obtain ⟨k, hk, ho⟩ := ho
  rcases w.move_cases i m with ⟨k₀, c, rfl, hk₀, hc⟩ | hs
  · cases hk.symm.trans hk₀
    cases hk'.symm.trans (move_loop hk hc).2
    have hnow : (w.move (.step (.loop i))).now = w.now := (loop_steady w i).now
    rw [hnow]
    exact (h.own hw hk ho hc).2 c' hc'
  · obtain ⟨k₁, hk₁, hloop⟩ := hs.settles hw hk ho
    cases hk'.symm.trans hk₁
    rcases hloop with he | he
    · refine (h k c' hk (he.symm.trans hc')).imp_right fun ⟨hfast, hdue⟩ => ⟨hfast.move hw, ?_⟩
      exact fun a id rest he => Nat.le_trans (hdue a id rest he) (move_now_le hw m)
    · rw [hc'] at he
      cases he

/-- Each step of a stopped loop that hurries brings it nearer to its end, and no other move
takes it back. -/
theorem Hurries.nearer {m : Move} {ms : List Move} (h : w.Hurries i (m :: ms)) (ho : w.Over i) :
    ((w.move m).post i).loop.left ≤
      (w.post i).loop.left - if m.isStepOf (.loop i) then 1 else 0 := by
  obtain ⟨k, hk, ho⟩ := ho
  have hidle (hl : ((w.move m).post i).loop.isActive = false) :
      ((w.move m).post i).loop.left = 0 := by
    cases hm : ((w.move m).post i).loop with
    | active c =>
      rw [hm] at hl
      cases hl
    | _ => rfl
  rcases w.move_cases i m with ⟨k₀, c, rfl, hk₀, hc⟩ | hs
  · cases hk.symm.trans hk₀
    rw [post_loop (move_loop hk hc).2, post_loop hk, hc, if_pos (Move.isStepOf_step _)]
    exact Nat.le_sub_one_of_lt (h.own hw hk ho hc).1
  · obtain ⟨k', hk', hloop⟩ := hs.settles hw hk ho
    by_cases ha : ((w.move m).post i).loop.isActive = true
    · rw [post_loop hk'] at ha ⊢
      have he : k'.consumer = k.consumer := hloop.resolve_right (by simp [ha])
      have hm : m.isStepOf (.loop i) = false := by
        refine Bool.eq_false_iff.mpr fun hm => ?_
        have hidle := hs (Move.eq_step hm)
        rw [post_loop hk, ← he, ha] at hidle
        cases hidle
      rw [post_loop hk, he, hm]
      exact Nat.le_refl _
    · rw [hidle (Bool.eq_false_iff.mpr ha)]
      exact Nat.zero_le _

/-- A stopped loop that hurries has ended when it has taken its steps. -/
theorem Hurries.run {ms : List Move} (h : w.Hurries i ms) (ho : w.Over i)
    (hn : (w.post i).loop.left ≤ ms.countP (Move.isStepOf (.loop i))) :
    ((World.run ms w).post i).loop.isActive = false := by
  induction ms generalizing w with
  | nil => exact LoopState.left_zero (Nat.le_zero.mp hn)
  | cons m ms ih =>
    refine ih (hw.move m) (h.move hw ho) (ho.move hw m) ?_
    have hnear := h.nearer hw ho
    rw [List.countP_cons] at hn
    omega

end

end World

end TaskRelay
