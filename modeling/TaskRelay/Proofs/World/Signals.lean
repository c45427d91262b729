import TaskRelay.Proofs.World.Bystanders

/-!
# Stop signals

Every worker has a stop token of its own, and nobody but its shutdown cancels it. So a
consumer loop finds it cancelled if and only if a shutdown of its worker was tried, and only
then it has entries to give back.
-/

set_option autoImplicit false

namespace TaskRelay

def Worker.signal (k : Worker) : Token × Bool := (k.stop, k.lifecycle.isOver)

def LoopState.GivesBack : LoopState → Prop
  | .active (.requeueing _) | .active (.adding _ _ _) => True
  | _ => False

namespace World

def signals (w : World) : List (Token × Bool) := w.workers.map Worker.signal

theorem signals_some {w : World} {i : Nat} {k : Worker} (hk : w.workers[i]? = some k) :
    w.signals[i]? = some k.signal := by
  simp [signals, hk]

inductive Signals (w w' : World) : Prop
  | rests (same : w'.signals = w.signals) (tokens : w'.tokens = w.tokens)
  | creates (new : w'.signals = w.signals ++ [(w.tokens.fresh.2, false)])
      (tokens : w'.tokens = w.tokens.fresh.1)
  | stops {i : Nat} {k : Worker} (worker : w.workers[i]? = some k)
      (first : k.lifecycle.isOver = false) (told : w'.signals = w.signals.set i (k.stop, true))
      (tokens : w'.tokens = w.tokens.cancel k.stop)

theorem sweep_signals (w : World) : w.sweep.signals = w.signals := by
  refine List.ext_getElem? fun i => ?_
  simp only [signals, sweep, List.getElem?_map, List.getElem?_mapIdx]
  cases w.workers[i]? with
  | none => rfl
  | some k =>
    simp only [Option.map_some]
    split <;> rfl

theorem setWorker_signals {w : World} {i : Nat} {k : Worker} (hk : w.workers[i]? = some k)
    {k' : Worker} (h : k'.signal = k.signal) : (w.setWorker i k').signals = w.signals := by
  have hs := signals_some hk
  obtain ⟨hi, hs⟩ := List.getElem?_eq_some_iff.mp hs
  rw [signals, setWorker, List.map_set, h, ← hs]
  exact List.set_getElem_self hi

theorem notes_signals (w : World) (ns : List Note) : (w.notes ns).signals = w.signals :=
  congrArg (List.map Worker.signal) (notes_workers w ns)

theorem conclude_signals (w : World) (n : Nat) (p : Progress Call Outcome) :
    (w.conclude n p).signals = w.signals := by
  cases p with
  | done o => exact sweep_signals _
  | _ => rfl

theorem request_signal (r : Request) (now : Nat) (k : Worker) :
    (r.step now k).1.signal = k.signal := by
  have after (n : Nat) (h : Handoff Entry) (p : Progress Take (Taken Entry)) :
      (Request.afterTake k n h p).1.signal = k.signal := by
    rcases p with t | t | ⟨e | _ | _⟩ <;> rfl
  cases r with
  | fresh =>
    simp only [Request.step, Worker.spawn]
    split
    · next hn => simp [Worker.signal, hn, Lifecycle.isOver, Lifecycle.rank]
    · rfl
  | between n =>
    simp only [Request.step]
    split
    · exact after _ _ _
    · rfl
  | taking n t => exact after _ _ _

/-- A move that is concluded by a call. -/
theorem concluded_signals {w w₁ : World} (h : w.Signals w₁) (n : Nat) (p : Progress Call Outcome) :
    w.Signals (w₁.conclude n p) := by
  cases h with
  | rests same tokens =>
    exact .rests ((conclude_signals _ n p).trans same) ((conclude_tokens _ n p).trans tokens)
  | creates new tokens =>
    exact .creates ((conclude_signals _ n p).trans new) ((conclude_tokens _ n p).trans tokens)
  | stops worker first told tokens =>
    exact .stops worker first ((conclude_signals _ n p).trans told)
      ((conclude_tokens _ n p).trans tokens)

def ClosesLate (w : World) : Prop :=
  ∀ n i k, w.call? n = some (.shutting i .closing) → w.workers[i]? = some k →
    k.lifecycle.isOver = true

/-- The first shutdown of a worker cancels its stop token, and no other does. -/
theorem shutdown_signal (s : Shutdown) (now : Nat) (tokens : Cancellations) (store : Store)
    (k : Worker) (hl : s = .closing → k.lifecycle.isOver = true) :
    let r := s.step now tokens store k
    (r.worker.signal = k.signal ∧ r.tokens = tokens) ∨
      (k.lifecycle.isOver = false ∧ r.worker.signal = (k.stop, true) ∧
        r.tokens = tokens.cancel k.stop) := by
  intro r
  cases s with
  | fresh =>
    simp only [r, Shutdown.step]
    split
    · exact Or.inl ⟨rfl, rfl⟩
    · next ho => exact Or.inr ⟨Bool.eq_false_iff.mpr ho, rfl, rfl⟩
  | joining d =>
    simp only [r, Shutdown.step]
    split
    case h_5 => split <;> exact Or.inl ⟨rfl, rfl⟩
    all_goals exact Or.inl ⟨rfl, rfl⟩
  | closing =>
    refine Or.inl ⟨?_, rfl⟩
    change (k.stop, true) = (k.stop, k.lifecycle.isOver)
    rw [hl rfl]

theorem shutdown_signals {w : World} {n i : Nat} {s : Shutdown}
    (hc : w.call? n = some (.shutting i s)) (hl : w.ClosesLate) :
    w.Signals (w.stepCall n (.shutting i s)).1 := by
  cases hk : w.workers[i]? with
  | none =>
    simp only [stepCall, hk]
    exact .rests rfl rfl
  | some k =>
    have hs := shutdown_signal s w.now w.tokens w.store k fun h => hl n i k (h ▸ hc) hk
    simp only [stepCall, hk]
    generalize s.step w.now w.tokens w.store k = r at hs ⊢
    have hk' : ({ w with tokens := r.tokens, store := r.store } : World).workers[i]? = some k := hk
    rcases hs with ⟨hs, ht⟩ | ⟨first, hs, ht⟩
    · exact .rests ((notes_signals _ _).trans (setWorker_signals hk' hs))
        ((notes_tokens _ _).trans ht)
    · refine .stops hk first ((notes_signals _ _).trans ?_) ((notes_tokens _ _).trans ht)
      rw [signals, setWorker, List.map_set, hs]
      rfl

section
variable {w : World} (hw : w.Proper)
include hw

theorem call_signals (hl : w.ClosesLate) (n : Nat) : w.Signals (w.move (.step (.call n))) := by
  cases hc : w.call? n with
  | none =>
    rw [move, step_gone hc]
    exact .rests rfl rfl
  | some c =>
    have hm : w.move (.step (.call n)) = _ := step_call hc
    rw [hm]
    refine concluded_signals ?_ n _
    cases c with
    | adding a => exact .rests rfl rfl
    | publishing i p =>
      cases hk : w.workers[i]? with
      | none =>
        simp only [stepCall, hk]
        exact .rests rfl rfl
      | some k =>
        simp only [stepCall, hk]
        exact .rests (notes_signals _ _) (notes_tokens _ _)
    | shutting i s => exact shutdown_signals hc hl
    | requesting i r =>
      cases hk : w.workers[i]? with
      | none =>
        simp only [stepCall, hk]
        exact .rests rfl rfl
      | some k =>
        have hs := request_signal r w.now k
        simp only [stepCall, hk]
        generalize r.step w.now k = t at hs
        obtain ⟨k', ns, p⟩ := t
        have rests : w.Signals ((w.setWorker i k').notes ns) :=
          .rests ((notes_signals _ ns).trans (setWorker_signals hk hs)) (notes_tokens _ ns)
        rcases p with r' | r' | e | e
        · exact rests
        · exact rests
        · exact rests
        · exact .rests ((notes_signals _ _).trans ((notes_signals _ ns).trans
            (setWorker_signals hk hs))) ((notes_tokens _ _).trans (notes_tokens _ ns))
    | _ => exact False.elim (hw.calls n _ hc)

omit hw in
theorem loop_signals (i : Nat) : w.Signals (w.move (.step (.loop i))) := by
  rcases w.move_cases i (.step (.loop i)) with ⟨k, c, -, hk, hc⟩ | h
  · have hm : w.move (.step (.loop i)) = _ := stepLoop_active hk hc rfl
    rw [hm]
    have hk' : (({ w with store := (w.loopStep k c).store } : World).notes
        (w.loopStep k c).notes).workers[i]? = some k := by rwa [notes_workers]
    refine .rests ((setWorker_signals hk' ?_).trans (notes_signals _ _)) (notes_tokens _ _)
    rfl
  · rw [move_idle (h rfl)]
    exact .rests rfl rfl

theorem move_signals (hl : w.ClosesLate) (m : Move) : w.Signals (w.move m) := by
  have put {i : Nat} {k : Worker} (hk : w.workers[i]? = some k) {k' : Worker}
      (h : k'.signal = k.signal) : w.Signals (w.setWorker i k') :=
    .rests (setWorker_signals hk h) rfl
  cases m with
  | step a =>
    cases a with
    | call n => exact call_signals hw hl n
    | loop i => exact loop_signals i
  | create settings handler =>
    simp only [move, createWorker]
    cases w.store.createGroup settings.stream settings.group with
    | error e => exact .rests rfl rfl
    | ok store =>
      refine .creates ?_ rfl
      simp only [signals, List.map_append]
      rfl
  | spawn i =>
    cases hk : w.workers[i]? with
    | none =>
      simp only [move, hk]
      exact .rests rfl rfl
    | some k =>
      simp only [move, hk]
      exact put hk (request_signal .fresh w.now k)
  | drop n =>
    simp only [move, dropCall]
    split
    · next i r hc =>
      cases hk : w.workers[i]? with
      | none => exact .rests rfl rfl
      | some k =>
        refine .rests ((sweep_signals _).trans ?_) rfl
        refine setWorker_signals (w := { w with calls := Table.erase n w.calls }) hk ?_
        cases r <;> rfl
    · exact .rests (sweep_signals _) rfl
    · exact .rests (sweep_signals _) rfl
    · exact .rests rfl rfl
  | letGo i =>
    cases hk : w.workers[i]? with
    | none =>
      simp only [move, letGo, hk]
      exact .rests rfl rfl
    | some k =>
      simp only [move, letGo, hk]
      exact .rests ((sweep_signals _).trans (setWorker_signals hk rfl)) rfl
  | panic i =>
    cases hk : w.workers[i]? with
    | none =>
      simp only [move, hk]
      exact .rests rfl rfl
    | some k =>
      simp only [move, hk]
      split
      · exact put hk rfl
      · exact .rests rfl rfl
  | createGroup q =>
    simp only [move]
    split <;> exact .rests rfl rfl
  | _ => exact .rests rfl rfl

end

end World

structure Signed (ss : List (Token × Bool)) (c : Cancellations) : Prop where
  roots : ∀ (i : Nat) p, ss[i]? = some p → p.1.ancestors = [] ∧ p.1.mark < c.next
  apart : ∀ (i j : Nat) p q, ss[i]? = some p → ss[j]? = some q → p.1.mark = q.1.mark → i = j
  known : ∀ m ∈ c.cancelled, m < c.next
  heard : ∀ (i : Nat) p, ss[i]? = some p → (p.1.mark ∈ c.cancelled ↔ p.2 = true)

namespace Signed

variable {ss : List (Token × Bool)} {c : Cancellations}

theorem fresh (h : Signed ss c) : Signed (ss ++ [(c.fresh.2, false)]) c.fresh.1 := by
  have cases_of {i : Nat} {p : Token × Bool} (hp : (ss ++ [(c.fresh.2, false)])[i]? = some p) :
      ss[i]? = some p ∨ (i = ss.length ∧ p = (c.fresh.2, false)) := by
    rcases Nat.lt_trichotomy i ss.length with hi | hi | hi
    · rw [List.getElem?_append_left hi] at hp
      exact Or.inl hp
    · subst hi
      rw [List.getElem?_concat_length] at hp
      exact Or.inr ⟨rfl, (Option.some.inj hp).symm⟩
    · rw [List.getElem?_eq_none (by simpa using Nat.succ_le_of_lt hi)] at hp
      cases hp
  refine ⟨fun i p hp => ?_, fun i j p q hp hq hm => ?_, fun m hm => ?_, fun i p hp => ?_⟩
  · rcases cases_of hp with hp | ⟨-, rfl⟩
    · exact ⟨(h.roots i p hp).1, Nat.lt_succ_of_lt (h.roots i p hp).2⟩
    · exact ⟨rfl, Nat.lt_succ_self _⟩
  · rcases cases_of hp with hp | ⟨hi, rfl⟩ <;> rcases cases_of hq with hq | ⟨hj, rfl⟩
    · exact h.apart i j p q hp hq hm
    · exact absurd hm (Nat.ne_of_lt (h.roots i p hp).2)
    · exact absurd hm.symm (Nat.ne_of_lt (h.roots j q hq).2)
    · rw [hi, hj]
  · exact Nat.lt_succ_of_lt (h.known m hm)
  · rcases cases_of hp with hp | ⟨-, rfl⟩
    · exact h.heard i p hp
    · exact iff_of_false (fun hm => Nat.lt_irrefl _ (h.known _ hm)) Bool.false_ne_true

theorem cancel (h : Signed ss c) {i : Nat} {t : Token} (hi : ss[i]? = some (t, false)) :
    Signed (ss.set i (t, true)) (c.cancel t) := by
  have hlt : i < ss.length := (List.getElem?_eq_some_iff.mp hi).1
  have cases_of {j : Nat} {p : Token × Bool} (hp : (ss.set i (t, true))[j]? = some p) :
      (j = i ∧ p = (t, true)) ∨ (j ≠ i ∧ ss[j]? = some p) := by
    by_cases hj : i = j
    · subst hj
      rw [List.getElem?_set_self hlt] at hp
      exact Or.inl ⟨rfl, (Option.some.inj hp).symm⟩
    · rw [List.getElem?_set_ne hj] at hp
      exact Or.inr ⟨Ne.symm hj, hp⟩
  have was {j : Nat} {p : Token × Bool} (hp : (ss.set i (t, true))[j]? = some p) :
      ∃ q, ss[j]? = some q ∧ q.1 = p.1 := by
    rcases cases_of hp with ⟨rfl, rfl⟩ | ⟨-, hp⟩
    · exact ⟨_, hi, rfl⟩
    · exact ⟨p, hp, rfl⟩
  refine ⟨fun j p hp => ?_, fun j j' p q hp hq hm => ?_, fun m hm => ?_, fun j p hp => ?_⟩
  · obtain ⟨q, hq, he⟩ := was hp
    exact he ▸ h.roots j q hq
  · obtain ⟨p', hp', he⟩ := was hp
    obtain ⟨q', hq', he'⟩ := was hq
    exact h.apart j j' p' q' hp' hq' (by rw [he, he', hm])
  · rcases List.mem_cons.mp hm with rfl | hm
    · exact (h.roots i _ hi).2
    · exact h.known m hm
  · rcases cases_of hp with ⟨rfl, rfl⟩ | ⟨hj, hp⟩
    · exact iff_of_true List.mem_cons_self rfl
    · have hne : p.1.mark ≠ t.mark := fun hm => hj (h.apart j i p _ hp hi hm)
      rw [Cancellations.cancel, List.mem_cons, h.heard j p hp]
      exact or_iff_right hne

end Signed

namespace World

theorem Signals.signed {w w' : World} (hs : w.Signals w') (h : Signed w.signals w.tokens) :
    Signed w'.signals w'.tokens := by
  cases hs with
  | rests same tokens => rwa [same, tokens]
  | creates new tokens =>
    rw [new, tokens]
    exact h.fresh
  | @stops i k worker first told tokens =>
    rw [told, tokens]
    refine h.cancel ?_
    rw [signals_some worker, Worker.signal, first]

/-- A worker was told to stop if and only if a shutdown of it was tried. -/
theorem stop_heard {w : World} (h : Signed w.signals w.tokens) {i : Nat} {k : Worker}
    (hk : w.workers[i]? = some k) : w.isCancelled k.stop = k.lifecycle.isOver := by
  have hs := signals_some hk
  have hroot : k.stop.ancestors = [] := (h.roots i _ hs).1
  have hheard : k.stop.mark ∈ w.tokens.cancelled ↔ k.lifecycle.isOver = true := h.heard i _ hs
  rw [Bool.eq_iff_iff, ← hheard]
  simp [isCancelled, Cancellations.isCancelled, hroot]

theorem watchSlot_unstopped (h : Handoff Entry) (e : Entry) :
    (h.watchSlot false).2 ≠ .done (.stopped e) := by
  unfold Handoff.watchSlot
  dsimp only
  split <;> simp

theorem resume_unstopped (o : Offer) (h : Handoff Entry) (e : Entry) :
    (o.resume h false).2 ≠ .done (.stopped e) := by
  unfold Offer.resume
  rw [if_neg Bool.false_ne_true]
  split
  · exact watchSlot_unstopped _ e
  · simp

/-- A loop that was not told to stop gives nothing back. -/
theorem step_unstopped (cfg : StreamSettings) (view : StoreView) (now : Nat) (store : Store)
    (handoff : Handoff Entry) {c : Consumer} (hc : ¬(LoopState.active c).GivesBack) :
    ¬(c.step cfg view now false store handoff).state.GivesBack := by
  have read (s : Store) (h : Handoff Entry) (p : Progress GroupRead ReadResult) :
      ¬(Consumer.afterRead cfg now s h p).state.GivesBack := by
    rcases p with r | r | ⟨e | ⟨_ | ⟨e, es⟩⟩⟩ <;> exact fun h => h
  have offer (h : Handoff Entry) (id : String) (rest : List Entry)
      {p : Progress Offer (Offered Entry)} (hp : ∀ e, p ≠ .done (.stopped e)) :
      ¬(Consumer.afterOffer store h id rest p).state.GivesBack := by
    rcases p with o | o | ⟨_ | e⟩
    · exact fun h => h
    · exact fun h => h
    · exact fun h => h
    · exact absurd rfl (hp e)
  cases c with
  | spawned => exact fun h => h
  | top =>
    simp only [Consumer.step, Bool.false_eq_true, if_false]
    split
    · exact fun h => h
    · exact read _ _ _
  | reading r => exact read _ _ _
  | pausing d =>
    simp only [Consumer.step, Bool.false_eq_true, if_false]
    split <;> exact fun h => h
  | holding batch =>
    cases batch with
    | nil => exact fun h => h
    | cons e rest =>
      simp only [Consumer.step]
      exact offer _ _ _ fun e' => watchSlot_unstopped _ e'
  | offering o id rest =>
    simp only [Consumer.step]
    exact offer _ _ _ fun e => resume_unstopped o handoff e
  | acking id rest => exact fun h => h
  | requeueing batch => exact absurd trivial hc
  | adding a id rest => exact absurd trivial hc

structure Regular (w : World) : Prop where
  proper : w.Proper
  lived : ∀ i, ∃ h, (w.post i).Lived h
  filed : w.Filed
  past : ∀ e ∈ w.ended, e.call < w.nextCall ∧ w.call? e.call = none
  signed : Signed w.signals w.tokens
  tame : ∀ (i : Nat) k, w.workers[i]? = some k → k.consumer.GivesBack → k.lifecycle.isOver = true

section
variable {w : World} (hw : w.Regular)
include hw

/-- The lifecycle of a worker goes forward. -/
theorem Regular.forward {i : Nat} {k : Worker} (hk : w.workers[i]? = some k) (m : Move) :
    ∃ k', (w.move m).workers[i]? = some k' ∧ k.lifecycle.rank ≤ k'.lifecycle.rank := by
  obtain ⟨h, hl⟩ := hw.lived i
  obtain ⟨f, hf, hle⟩ := (move_run hw.proper hl m).forward (post_phase i w hk)
  obtain ⟨k', hk', rfl⟩ := Option.map_eq_some_iff.mp hf
  exact ⟨k', hk', hle⟩

theorem Regular.worker_move {i : Nat} {k : Worker} (hk : w.workers[i]? = some k) (m : Move) :
    ∃ k', (w.move m).workers[i]? = some k' ∧ k'.settings = k.settings := by
  obtain ⟨h, hl⟩ := hw.lived i
  exact move_worker hw.proper hl hk m

theorem Regular.isOver {i : Nat} {k : Worker} (hk : w.workers[i]? = some k)
    (ho : k.lifecycle.isOver = true) (m : Move) :
    ∃ k', (w.move m).workers[i]? = some k' ∧ k'.lifecycle.isOver = true := by
  obtain ⟨k', hk', hle⟩ := hw.forward hk m
  simp only [Lifecycle.isOver, decide_eq_true_eq] at ho
  exact ⟨k', hk', decide_eq_true (Nat.le_trans ho hle)⟩

theorem Regular.closesLate : w.ClosesLate := by
  intro n i k hc hk
  obtain ⟨h, hl⟩ := hw.lived i
  obtain ⟨-, ⟨-, f, hf, hst⟩, -⟩ := hl.calls n _ (post_calls hc (if_pos rfl))
  obtain rfl := Option.some.inj ((post_phase i w hk).symm.trans hf)
  simp [show k.lifecycle = .stopping from hst, Lifecycle.isOver, Lifecycle.rank]

theorem Regular.stop_heard {i : Nat} {k : Worker} (hk : w.workers[i]? = some k) :
    w.isCancelled k.stop = k.lifecycle.isOver :=
  World.stop_heard hw.signed hk

theorem Regular.tame_move (m : Move) (i : Nat) (k' : Worker) (hk' : (w.move m).workers[i]? = some k')
    (hg : k'.consumer.GivesBack) : k'.lifecycle.isOver = true := by
  obtain ⟨h, hl⟩ := hw.lived i
  have kept {k : Worker} (hk : w.workers[i]? = some k) (ho : k.lifecycle.isOver = true) :
      k'.lifecycle.isOver = true := by
    obtain ⟨k₁, hk₁, ho₁⟩ := hw.isOver hk ho m
    rwa [Option.some.inj (hk'.symm.trans hk₁)]
  rcases w.move_cases i m with ⟨k, c, rfl, hk, hc⟩ | hs
  · by_cases ho : k.lifecycle.isOver = true
    · exact kept hk ho
    · have hcalm : ¬(LoopState.active c).GivesBack := fun hg => ho (hw.tame i k hk (hc ▸ hg))
      obtain rfl := Option.some.inj (hk'.symm.trans (move_loop hk hc).2)
      refine absurd hg ?_
      have hstop : w.isCancelled k.stop = false := by
        rw [hw.stop_heard hk]
        exact Bool.eq_false_iff.mpr ho
      simp only [loopStep, hstop]
      exact step_unstopped _ _ _ _ _ hcalm
  · have hfades := hs.fades hw.proper hl
    rw [post_loop hk'] at hfades
    rcases hfades with he | he | he | he
    · cases hk : w.workers[i]? with
      | none =>
        rw [Post.loop, post, hk] at he
        rw [he] at hg
        exact False.elim hg
      | some k =>
        rw [post_loop hk] at he
        exact kept hk (hw.tame i k hk (he ▸ hg))
    all_goals
      rw [he] at hg
      exact False.elim hg

/-- A call that has ended is not under way again. -/
theorem Regular.past_move (m : Move) :
    ∀ e ∈ (w.move m).ended, e.call < (w.move m).nextCall ∧ (w.move m).call? e.call = none := by
  intro e he
  have hle : w.nextCall ≤ (w.move m).nextCall := w.happen_next (.act (.move m))
  obtain ⟨es, hes, hown⟩ := move_ended hw.proper m
  rw [hes] at he
  rcases List.mem_append.mp he with he | he
  · obtain ⟨hlt, hnone⟩ := hw.past e he
    refine ⟨Nat.lt_of_lt_of_le hlt hle, ?_⟩
    by_cases hm : m = .step (.call e.call)
    · rw [hm, World.move, step_gone hnone, hnone]
    · cases move_leaves hw.proper hm with
      | stays call => exact call.trans hnone
      | drops move gone => exact gone
      | begins new => exact absurd hlt (Nat.not_lt.mpr (Nat.le_of_eq new.symm))
  · obtain ⟨-, hcall, hnone⟩ := hown e he
    obtain ⟨c, hc⟩ := Option.ne_none_iff_exists'.mp hcall
    exact ⟨Nat.lt_of_lt_of_le (hw.filed.known _ c hc) hle, hnone⟩

/-- A call under way is not on record as ended. -/
theorem Regular.under_way {n : Nat} (hc : w.call? n ≠ none) : w.ended? n = none := by
  refine List.find?_eq_none.mpr fun e he => ?_
  have hne : e.call ≠ n := fun h => hc (h ▸ (hw.past e he).2)
  simpa using hne

theorem Regular.move (m : Move) : (w.move m).Regular where
  proper := (move_follows hw.proper m).proper hw.proper
  lived i := by
    obtain ⟨h, hl⟩ := hw.lived i
    exact ⟨_, hl.run (move_run hw.proper hl m)⟩
  filed := hw.filed.happen (.act (.move m))
  past := hw.past_move m
  signed := (move_signals hw.proper hw.closesLate m).signed hw.signed
  tame := hw.tame_move m

theorem Regular.run (ms : List Move) : (run ms w).Regular := by
  induction ms generalizing w with
  | nil => exact hw
  | cons m ms ih => exact ih (hw.move m)

theorem Regular.endedIn_run {n first last : Nat} {o : Outcome} (h : w.EndedIn n first last o)
    (ms : List Move) : (World.run ms w).EndedIn n first last o := by
  induction ms generalizing w with
  | nil => exact h
  | cons m ms ih => exact ih (hw.move m) (endedIn_move hw.proper h m)

end

theorem onStore_regular (view : StoreView) (ops : List Store.Op) : (onStore view ops).Regular where
  proper := onStore_proper view ops
  lived i := ⟨[], onStore_lived view ops i⟩
  filed :=
    have h := start_filed view
    ⟨h.sorted, h.known, h.owners⟩
  past := by simp [onStore, start]
  signed := by
    refine ⟨?_, ?_, ?_, ?_⟩ <;> simp [signals, onStore, start, Cancellations.start]
  tame := by simp [onStore, start]

end World

end TaskRelay
