import TaskRelay.Proofs.World.Refusal

/-!
# Shutdown under a clock

The shutdown that is tried first returns at the end of its grace period at the latest. It
returns without the clock moving if the loop has nothing to give back, or additions to the
store take no time. And when it has returned, whoever still requests a task is told so
without the clock moving either.
-/

set_option autoImplicit false

namespace TaskRelay

namespace World

inductive Parts (w : World) (i id t last : Nat) : Nat → Prop
  | joining (call : w.call? id = some (.shutting i (.joining (t + Shutdown.grace))))
      (since : t ≤ w.now) (bound : w.now ≤ last) :
      Parts w i id t last 2
  | closing (call : w.call? id = some (.shutting i .closing))
      (since : t ≤ w.now) (bound : w.now ≤ last) :
      Parts w i id t last 1
  | returned (ended : w.EndedIn id t last (.shutDown (.ok ()))) (stopped : w.Stopped i) :
      Parts w i id t last 0

def Free (w : World) (i t : Nat) : Prop :=
  (w.post i).loop.isActive = true → t + Shutdown.grace ≤ w.now

section
variable {w : World} {i id t last n : Nat}

theorem joining_step (id d : Nat) {k : Worker} (hk : w.workers[i]? = some k) :
    (w.stepCall id (.shutting i (.joining d))).2 = .running (.shutting i .closing) ∨
      ((w.stepCall id (.shutting i (.joining d))).2 = .waiting (.shutting i (.joining d)) ∧
        k.consumer.isActive = true ∧ w.now < d) := by
  simp only [stepCall, hk, Shutdown.step]
  cases hc : k.consumer with
  | active c =>
    by_cases hd : d ≤ w.now
    · exact Or.inl (by simp [hd, Progress.within])
    · exact Or.inr ⟨by simp [hd, Progress.within], rfl, Nat.lt_of_not_le hd⟩
  | _ => exact Or.inl rfl

section
variable (hw : w.Regular)
include hw

/-- The worker of a shutdown that has begun is being stopped. -/
theorem Regular.winner {s : Shutdown} (hc : w.call? id = some (.shutting i s)) (hs : s ≠ .fresh) :
    ∃ k, w.workers[i]? = some k ∧ k.lifecycle = .stopping := by
  obtain ⟨h, hl⟩ := hw.lived i
  have hok := (hl.calls id _ (post_calls hc (if_pos rfl))).2
  have worker (hwin : (w.post i).Winner h id) :
      ∃ k, w.workers[i]? = some k ∧ k.lifecycle = .stopping := by
    obtain ⟨-, f, hf, hst⟩ := hwin
    obtain ⟨k, hk, rfl⟩ := Option.map_eq_some_iff.mp hf
    exact ⟨k, hk, hst⟩
  cases s with
  | fresh => exact absurd rfl hs
  | joining d => exact worker hok.1
  | closing => exact worker hok.1

theorem closing_stops (hc : w.call? id = some (.shutting i .closing)) :
    (w.move (.step (.call id))).Stopped i := by
  obtain ⟨h, hl⟩ := hw.lived i
  obtain ⟨k, hk, -⟩ := hw.winner hc (by simp)
  have hwon : Chronicle.Won (h ++ w.events i (.step (.call id))) :=
    ⟨id, List.mem_append_right _ (closing_returns hw.proper hk hc)⟩
  obtain ⟨k', hk', hs, -⟩ := won_stopped (hl.run (move_run hw.proper hl _)) hwon
  exact ⟨k', hk', hs⟩

theorem Parts.own (h : w.Parts i id t last n) :
    ∃ n', n' ≤ n ∧ (w.Free i t → n' ≤ n - 1) ∧
      (w.move (.step (.call id))).Parts i id t last n' := by
  have hnow := step_now hw.proper (.call id)
  cases h with
  | joining call since bound =>
    obtain ⟨k, hk, -⟩ := hw.winner call (by simp)
    have hcall := (step_own hw.proper call).1
    rcases joining_step id (t + Shutdown.grace) hk with hs | ⟨hs, hact, hd⟩
    · exact ⟨1, by omega, fun _ => Nat.le_refl 1,
        .closing (hcall.trans (congrArg left? hs)) (hnow.symm ▸ since) (hnow.symm ▸ bound)⟩
    · refine ⟨2, Nat.le_refl 2, fun hfree => ?_,
        .joining (hcall.trans (congrArg left? hs)) (hnow.symm ▸ since) (hnow.symm ▸ bound)⟩
      have hlate := hfree (by rwa [post_loop hk])
      omega
  | closing call since bound =>
    obtain ⟨k, hk, -⟩ := hw.winner call (by simp)
    have hs : (w.stepCall id (.shutting i .closing)).2 = .done (.shutDown (.ok ())) := by
      simp [stepCall, hk, Shutdown.step, Progress.within]
    have fore := hw.under_way (by rw [call]; simp)
    exact ⟨0, by omega, fun _ => by omega,
      .returned ⟨w.now, since, bound, ended?_own hw.proper call fore hs⟩ (closing_stops hw call)⟩
  | returned ended stopped =>
    exact ⟨0, by omega, fun _ => by omega,
      .returned (endedIn_move hw.proper ended _) (stopped.move hw _)⟩

/-- As long as the shutdown is under way, it can go on or its grace period is not over. -/
theorem Parts.pressed (h : w.Parts i id t last n) (hn : w.call? id ≠ none) :
    w.woken (.call id) = true ∨
      (t + Shutdown.grace ∈ w.deadlines ∧ w.now < t + Shutdown.grace ∧
        (w.post i).loop.isActive = true) := by
  cases h with
  | joining call =>
    obtain ⟨k, hk, -⟩ := hw.winner call (by simp)
    simp only [woken_call call, callWoken, hk, Shutdown.woken, post_loop hk]
    by_cases hd : t + Shutdown.grace ≤ w.now
    · exact Or.inl (by simp [hd])
    · cases ha : k.consumer.isActive with
      | false => exact Or.inl rfl
      | true =>
        refine Or.inr ⟨mem_deadlines call ?_, Nat.lt_of_not_le hd, rfl⟩
        simp [callDeadlines, Shutdown.deadline?]
  | closing call =>
    obtain ⟨k, hk, -⟩ := hw.winner call (by simp)
    exact Or.inl (by simp only [woken_call call, callWoken, hk, Shutdown.woken])
  | returned ended => exact absurd (hw.under_way hn) ended.ne_none

def Room (w : World) (i t last : Nat) (ms : List Move) : Prop :=
  last = t + Shutdown.grace ∨ w.Hurries i ms

theorem Hurries.awake {ms : List Move} (h : w.Hurries i ms) (ho : w.Over i)
    (ha : (w.post i).loop.isActive = true) : w.woken (.loop i) = true := by
  obtain ⟨k, hk, ho⟩ := ho
  rw [post_loop hk] at ha
  cases hc : k.consumer with
  | active c =>
    simp only [woken, hk, hc, hw.stop_heard hk, ho]
    exact (h k c hk hc).woken w.store k.handoff
  | _ =>
    rw [hc] at ha
    cases ha

/-- Time passes only as long as the shutdown has some left. -/
theorem Parts.wait (h : w.Parts i id t last n) (hn : w.call? id ≠ none) (bound : w.now ≤ last)
    (ho : w.Over i) {m : Move} {ms : List Move} (room : w.Room i t last (m :: ms))
    (ht : w.TimelyMove m) : (w.move m).now ≤ last := by
  rcases h.pressed hw hn with hwoken | ⟨hdue, hlt, hact⟩
  · exact still_now hw hwoken ht ▸ bound
  · rcases room with rfl | hurries
    · rcases move_now hw.proper m with ⟨millis, rfl⟩ | hnow
      · exact Lull.inTime ht _ hdue hlt
      · exact hnow ▸ bound
    · exact still_now hw (hurries.awake hw ho hact) ht ▸ bound

theorem Parts.other (h : w.Parts i id t last n) (ho : w.Over i) {m : Move} {ms : List Move}
    (room : w.Room i t last (m :: ms)) (ht : w.TimelyMove m) (hm : m ≠ .step (.call id)) :
    (w.move m).Parts i id t last n := by
  have kept {s : Shutdown} (call : w.call? id = some (.shutting i s)) (since : t ≤ w.now)
      (bound : w.now ≤ last) : (w.move m).call? id = some (.shutting i s) ∧
        t ≤ (w.move m).now ∧ (w.move m).now ≤ last :=
    ⟨call_kept hw.proper hw.filed call hm fun _ => ⟨i, s, rfl⟩,
      Nat.le_trans since (move_now_le hw m),
      h.wait hw (by rw [call]; simp) bound ho room ht⟩
  cases h with
  | joining call since bound =>
    obtain ⟨hcall, hsince, hbound⟩ := kept call since bound
    exact .joining hcall hsince hbound
  | closing call since bound =>
    obtain ⟨hcall, hsince, hbound⟩ := kept call since bound
    exact .closing hcall hsince hbound
  | returned ended stopped => exact .returned (endedIn_move hw.proper ended m) (stopped.move hw m)

theorem Free.move (h : w.Free i t) (ho : w.Over i) (m : Move) : (w.move m).Free i t := by
  intro ha
  refine Nat.le_trans (h ?_) (move_now_le hw m)
  obtain ⟨k, hk, ho⟩ := ho
  rcases w.move_cases i m with ⟨k₀, c, rfl, hk₀, hc⟩ | hs
  · rw [post_loop hk₀, hc]
    rfl
  · obtain ⟨k', hk', hloop⟩ := hs.settles hw hk ho
    rw [post_loop hk'] at ha
    rw [post_loop hk, ← hloop.resolve_right (by simp [ha]), ha]

end

structure Parting (w : World) (i id t last n : Nat) (ms : List Move) : Prop where
  regular : w.Regular
  told : w.Over i
  room : w.Room i t last ms
  parts : w.Parts i id t last n

theorem Parting.move {m : Move} {ms : List Move} (h : w.Parting i id t last n (m :: ms))
    (ht : w.TimelyMove m) : ∃ n', n' ≤ n ∧
      (w.Free i t → n' ≤ n - if m.isStepOf (.call id) then 1 else 0) ∧
      (w.move m).Parting i id t last n' ms := by
  have parting {n' : Nat} (hp : (w.move m).Parts i id t last n') :
      (w.move m).Parting i id t last n' ms :=
    ⟨h.regular.move m, h.told.move h.regular m,
      h.room.imp_right fun hurries => hurries.move h.regular h.told, hp⟩
  by_cases hm : m.isStepOf (.call id) = true
  · obtain rfl := Move.eq_step hm
    obtain ⟨n', hle, hfree, hp⟩ := h.parts.own h.regular
    exact ⟨n', hle, fun hf => by rw [if_pos hm]; exact hfree hf, parting hp⟩
  · refine ⟨n, Nat.le_refl n, fun _ => by rw [if_neg hm]; exact Nat.le_refl n, parting ?_⟩
    exact h.parts.other h.regular h.told h.room ht fun he => hm (by simp [he])

theorem Parting.run {ms : List Move} (h : w.Parting i id t last n ms) (ht : Timed ms w) :
    ∃ n', n' ≤ n ∧ (w.Free i t → n' ≤ n - ms.countP (Move.isStepOf (.call id))) ∧
      (World.run ms w).Parting i id t last n' [] := by
  induction ms generalizing w n with
  | nil => exact ⟨n, Nat.le_refl n, fun _ => Nat.le_refl n, h⟩
  | cons m ms ih =>
    obtain ⟨n₁, hle₁, hfree₁, h₁⟩ := h.move ht.1
    obtain ⟨n₂, hle₂, hfree₂, h₂⟩ := ih h₁ ht.2
    refine ⟨n₂, Nat.le_trans hle₂ hle₁, fun hf => ?_, h₂⟩
    -- once the loop is not waited for it is not waited for again, so every own step counts
    have hone := hfree₁ hf
    have hrest := hfree₂ (hf.move h.regular h.told m)
    rw [List.countP_cons]
    omega

end

section
variable {w : World} (hw : w.Regular) {i id : Nat} (hc : w.call? id = some (.shutting i .fresh))
include hw hc

/-- No time passes before the first step of a shutdown. -/
theorem fresh_holds {ms : List Move} (ht : Timed ms w) (hn : .step (.call id) ∉ ms) :
    (run ms w).call? id = some (.shutting i .fresh) ∧ (run ms w).now = w.now := by
  induction ms generalizing w with
  | nil => exact ⟨hc, rfl⟩
  | cons m ms ih =>
    rw [List.mem_cons, not_or] at hn
    have hwoken : w.woken (.call id) = true := by
      simp only [woken_call hc, callWoken]
      split <;> rfl
    have hkept := call_kept hw.proper hw.filed hc (Ne.symm hn.1) fun _ => ⟨i, _, rfl⟩
    obtain ⟨hcall, hend⟩ := ih (hw.move m) hkept ht.2 hn.2
    exact ⟨hcall, hend.trans (still_now hw hwoken ht.1)⟩

/-- The first shutdown of a worker tells its loop to stop and nothing else. -/
theorem winner_begins {k : Worker} (hk : w.workers[i]? = some k)
    (first : k.lifecycle.isOver = false) :
    (w.move (.step (.call id))).workers[i]? = some { k with lifecycle := .stopping } ∧
      ∀ last, w.now ≤ last →
        ∃ n ≤ 2, (w.move (.step (.call id))).Parts i id w.now last n := by
  have hlt : i < w.workers.length := (List.getElem?_eq_some_iff.mp hk).1
  have hstep : w.move (.step (.call id)) = (w.stepCall id (.shutting i .fresh)).1.conclude id
      (w.stepCall id (.shutting i .fresh)).2 := step_call hc
  have hcall := (step_own hw.proper hc).1
  have hnow := step_now hw.proper (.call id)
  constructor
  · simp only [hstep, stepCall, hk, Shutdown.step, first, Bool.false_eq_true, if_false,
      Progress.within, conclude, setCall, notes_workers, setWorker]
    exact List.getElem?_set_self hlt
  · intro last hlast
    simp only [stepCall, hk, Shutdown.step, first, Bool.false_eq_true, if_false] at hcall
    by_cases ha : k.consumer = .absent
    · rw [if_pos ha] at hcall
      exact ⟨1, by decide, .closing hcall hnow.ge (hnow ▸ hlast)⟩
    · rw [if_neg ha] at hcall
      exact ⟨2, Nat.le_refl 2, .joining hcall hnow.ge (hnow ▸ hlast)⟩

end

/-- How the shutdown of worker `i` stands that was called at time `t` and is to have returned
by `last`. -/
structure ReturnsBy (w : World) (i id t last : Nat) : Prop where
  due : w.EndsBy id t last (.shutDown (.ok ()))
  pressed : w.call? id ≠ none → w.woken (.call id) = true ∨
    (t + 200 ∈ w.deadlines ∧ w.now < t + 200 ∧ (w.post i).loop.isActive = true)
  ends : w.Free i t → ∀ ms, Timed ms w → 2 ≤ ms.countP (Move.isStepOf (.call id)) →
    (run ms w).EndedIn id t last (.shutDown (.ok ()))

section
variable {w : World} {i id t last n : Nat}

theorem Parts.endsBy (h : w.Parts i id t last n) : w.EndsBy id t last (.shutDown (.ok ())) := by
  cases h with
  | joining call since bound => exact Or.inr ⟨by simp [call], since, bound⟩
  | closing call since bound => exact Or.inr ⟨by simp [call], since, bound⟩
  | returned ended => exact Or.inl ended

/-- A shutdown that need not wait for the loop has all the time it needs. -/
theorem Free.room (h : w.Free i t) (now : w.now ≤ last) (hlast : last ≤ t + Shutdown.grace)
    (ms : List Move) : w.Room i t last ms := by
  cases ha : (w.post i).loop.isActive with
  | true => exact Or.inl (Nat.le_antisymm hlast (Nat.le_trans (h ha) now))
  | false =>
    refine Or.inr fun k c hk hc => ?_
    rw [post_loop hk, hc] at ha
    cases ha

theorem Parting.returnsBy {ms : List Move} (h : w.Parting i id t last n ms) (hn : n ≤ 2)
    (hlast : last ≤ t + Shutdown.grace) : w.ReturnsBy i id t last := by
  refine ⟨h.parts.endsBy, h.parts.pressed h.regular, fun hfree ms ht hsteps => ?_⟩
  rcases h.parts.endsBy with ended | ⟨-, -, now⟩
  · exact h.regular.endedIn_run ended ms
  · have h' : w.Parting i id t last n ms := ⟨h.regular, h.told, hfree.room now hlast ms, h.parts⟩
    obtain ⟨n', -, hfew, hend⟩ := h'.run ht
    have hparts := hend.parts
    rw [show n' = 0 by have := hfew hfree; omega] at hparts
    cases hparts with
    | returned ended => exact ended

end

/-- The loop was not started or has ended, it holds no entries, as while it reads or pauses, or
it can give them back in no time. -/
def Prompt (w : World) (k : Worker) (ms : List Move) : Prop :=
  k.consumer.isActive = false ∨ k.consumer.stage = .idle ∨ w.Unslowed ms

section
variable {w : World} (hw : w.Regular) {i id : Nat} {k : Worker}
  (hc : w.call? id = some (.shutting i .fresh)) (hk : w.workers[i]? = some k)
  (first : k.lifecycle.isOver = false) {ms : List Move}
include hw hc hk first

/-- The first step of a shutdown begins its parting. -/
theorem winner_parts {last : Nat} (hlast : w.now ≤ last)
    (room : (w.move (.step (.call id))).Room i w.now last ms) :
    ∃ n ≤ 2, (w.move (.step (.call id))).Parting i id w.now last n ms := by
  obtain ⟨hk', hparts⟩ := winner_begins hw hc hk first
  obtain ⟨n, hn, parts⟩ := hparts last hlast
  exact ⟨n, hn, hw.move _, ⟨_, hk', rfl⟩, room, parts⟩

theorem Prompt.hurries (h : w.Prompt k ms) : (w.move (.step (.call id))).Hurries i ms := by
  intro k' c hk' hc'
  obtain rfl := Option.some.inj ((winner_begins hw hc hk first).1.symm.trans hk')
  replace hc' : k.consumer = .active c := hc'
  rcases h with hidle | hidle | hfast
  · rw [hc'] at hidle
    cases hidle
  · rw [hc'] at hidle
    exact Or.inl hidle
  · refine Or.inr ⟨⟨?_, hfast.2⟩, fun a id' rest he => ?_⟩
    · rw [move_addDelay hw.proper (by simp)]
      exact hfast.1
    · have ho := hw.tame i k hk (by rw [hc', he]; trivial)
      rw [first] at ho
      cases ho

variable (ht : Timed ms (w.move (.step (.call id))))
include ht

theorem winner_in_time : (run ms (w.move (.step (.call id)))).ReturnsBy i id w.now
    (w.now + Shutdown.grace) := by
  obtain ⟨n, hn, h⟩ := winner_parts hw hc hk first (Nat.le_add_right _ _) (Or.inl rfl)
  obtain ⟨n', hle, -, hend⟩ := h.run ht
  exact hend.returnsBy (Nat.le_trans hle hn) (Nat.le_refl _)

theorem winner_at_once (h : w.Prompt k ms) :
    (run ms (w.move (.step (.call id)))).ReturnsBy i id w.now w.now ∧
      (((run ms (w.move (.step (.call id)))).post i).loop.isActive = true →
        (run ms (w.move (.step (.call id)))).woken (.loop i) = true) ∧
      (k.consumer.left ≤ ms.countP (Move.isStepOf (.loop i)) →
        ((run ms (w.move (.step (.call id)))).post i).loop.isActive = false) := by
  have hurries := h.hurries hw hc hk first
  obtain ⟨n, hn, h⟩ := winner_parts hw hc hk first (Nat.le_refl _) (Or.inr hurries)
  obtain ⟨n', hle, -, hend⟩ := h.run ht
  refine ⟨hend.returnsBy (Nat.le_trans hle hn) (Nat.le_add_right _ _), ?_, fun hsteps => ?_⟩
  · have hlate : w.now ≠ w.now + Shutdown.grace := by simp [Shutdown.grace]
    exact (hend.room.resolve_left hlate).awake hend.regular hend.told
  · refine hurries.run (hw.move _) h.told ?_
    rwa [post_loop (winner_begins hw hc hk first).1]

/-- The worker has stopped by the time its shutdown is on record. -/
theorem winner_stops (hn : (run ms (w.move (.step (.call id)))).ended? id ≠ none) :
    (run ms (w.move (.step (.call id)))).Stopped i := by
  obtain ⟨n, -, h⟩ := winner_parts hw hc hk first (Nat.le_add_right _ _) (Or.inl rfl)
  obtain ⟨n', -, -, hend⟩ := h.run ht
  cases hend.parts with
  | joining call => exact absurd (hend.regular.under_way (by simp [call])) hn
  | closing call => exact absurd (hend.regular.under_way (by simp [call])) hn
  | returned ended stopped => exact stopped

end

/-- The shutdown of worker `i` that is called in `w` and is the first to take a step, whatever its
loop is doing, whoever else is at work and however long the store takes to add an entry. It
returns 200 milliseconds later at the latest, and without the clock moving if nothing is to be
given back slowly: until then it can go on, or waits for a loop that can, or for a deadline that is
still to come. Once it has returned, every request under way is told that the queue is closed,
without the clock moving either. -/
theorem shutdown_in_time (view : StoreView) (ops : List Store.Op) (pre mid post : List Move)
    (i : Nat) {w w₀ w₁ : World} {k : Worker} (reached : w = run pre (onStore view ops))
    (called : w₀ = run (.shutdown i :: mid) w) (untried : .step (.call w.nextCall) ∉ mid)
    (worker : w₀.workers[i]? = some k) (first : k.lifecycle.isOver = false)
    (later : w₁ = run (.step (.call w.nextCall) :: post) w₀)
    (timed : Timed (.shutdown i :: mid ++ .step (.call w.nextCall) :: post) w) :
    w₁.ReturnsBy i w.nextCall w.now (w.now + 200) ∧
    (w₀.Prompt k post → w₁.ReturnsBy i w.nextCall w.now w.now ∧
      ((w₁.post i).loop.isActive = true → w₁.woken (.loop i) = true) ∧
      (k.consumer.left ≤ post.countP (Move.isStepOf (.loop i)) →
        (w₁.post i).loop.isActive = false)) ∧
    (w₁.ended? w.nextCall ≠ none → ∀ j r ms, w₁.call? j = some (.requesting i r) →
      (∀ n, r = .between n → n < 5) ∨
        Whole (pre ++ .shutdown i :: mid ++ .step (.call w.nextCall) :: post)
          (onStore view ops) →
      Timed ms w₁ → .drop j ∉ ms → w₁.Refused j ms) := by
  have hw : w.Regular := reached ▸ (onStore_regular view ops).run pre
  rw [timed_append] at timed
  obtain ⟨⟨-, hmid⟩, -, hpost⟩ := timed
  obtain ⟨hcall, hnow⟩ := fresh_holds (hw.move (.shutdown i)) (begin_same w _) hmid untried
  have hrun : run (.shutdown i :: mid) w = w₀ := called.symm
  change (run (.shutdown i :: mid) w).call? _ = _ at hcall
  change (run (.shutdown i :: mid) w).now = w.now at hnow
  rw [hrun] at hcall hnow hpost
  have hw₀ : w₀.Regular := called ▸ hw.run _
  subst later
  refine ⟨?_, fun hprompt => ?_, fun hended j r ms hj hr ht hd => ?_⟩
  · rw [← hnow]
    exact winner_in_time hw₀ hcall worker first hpost
  · rw [← hnow]
    exact winner_at_once hw₀ hcall worker first hpost hprompt
  · have hs := winner_stops hw₀ hcall worker first hpost hended
    refine hs.refuses ((hw₀.move _).run post) hj ?_ ht hd
    rcases hr with hr | hwhole
    · exact (em (r = .fresh)).imp_right fun hfresh => ⟨hfresh, hr⟩
    · have hfull : run (pre ++ .shutdown i :: mid ++ .step (.call w.nextCall) :: post)
          (onStore view ops) = run (.step (.call w.nextCall) :: post) w₀ := by
        rw [run_append, run_append, ← reached, hrun]
      exact whole_attempts view ops hwhole (hfull ▸ hs) (hfull ▸ hj)

def reading : List Move := [
  .create (.named "tasks" "crew" "first") (.scripted "none"), .request 0,
  .step (.call 0), .step (.call 0), .step (.loop 0), .step (.loop 0), .wait 300]

def leaving : List Move := [.step (.call 1), .step (.loop 0), .step (.call 1), .step (.call 1)]

theorem reading_shut_down :
    let w := run reading (onStore ⟨1, false⟩ [])
    let w₀ := run [.shutdown 0] w
    let w₁ := run (.step (.call 1) :: leaving) w₀
    (w.now = 300 ∧ w.nextCall = 1 ∧ w₁.ended.map Ended.call = [1]) ∧
    Timed ([.shutdown 0] ++ .step (.call 1) :: leaving) w ∧
    Whole (reading ++ [.shutdown 0] ++ .step (.call 1) :: leaving) (onStore ⟨1, false⟩ []) ∧
    (∃ k, w₀.workers[0]? = some k ∧ k.lifecycle.isOver = false ∧ w₀.Prompt k leaving) ∧
    w₁.ReturnsBy 0 1 300 300 ∧ w₁.Refused 0 [.step (.call 0), .step (.call 0)] := by
  intro w w₀ w₁
  have timed : Timed ([.shutdown 0] ++ .step (.call 1) :: leaving) w := by decide +kernel
  have whole : Whole (reading ++ [.shutdown 0] ++ .step (.call 1) :: leaving)
      (onStore ⟨1, false⟩ []) := by decide +kernel
  have hnow : w.now = 300 := by decide +kernel
  have hnext : w.nextCall = 1 := by decide +kernel
  have hends : w₁.ended.map Ended.call = [1] := by decide +kernel
  obtain ⟨k, hk, first, prompt⟩ :
      ∃ k, w₀.workers[0]? = some k ∧ k.lifecycle.isOver = false ∧ w₀.Prompt k leaving :=
    ⟨_, rfl, rfl, Or.inr (Or.inl rfl)⟩
  have h := shutdown_in_time (w := w) (k := k) ⟨1, false⟩ [] reading [] leaving 0 rfl rfl
    (by simp) hk first rfl
  rw [hnext, hnow] at h
  obtain ⟨-, hprompt, hrefused⟩ := h timed
  have hended : w₁.ended? 1 ≠ none := Option.isSome_iff_ne_none.mp (by decide +kernel)
  obtain ⟨r, hj⟩ : ∃ r, w₁.call? 0 = some (.requesting 0 r) := by
    have hasks : (w₁.call? 0).bind Call.asked? = some 0 := by decide +kernel
    obtain ⟨c, hc, ha⟩ := Option.bind_eq_some_iff.mp hasks
    have hw : w.Regular := (onStore_regular ⟨1, false⟩ []).run reading
    have hplain : c.Plain := ((hw.run [.shutdown 0]).run _).proper.calls 0 c hc
    cases c with
    | requesting i r =>
      cases ha
      exact ⟨r, hc⟩
    | driving => exact hplain.elim
    | _ => cases ha
  exact ⟨⟨hnow, hnext, hends⟩, timed, whole, ⟨k, hk, first, prompt⟩, (hprompt prompt).1,
    hrefused hended 0 r _ hj (Or.inr whole) ⟨trivial, trivial, trivial⟩ (by simp)⟩

end World

end TaskRelay
