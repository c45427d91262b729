import TaskRelay.Proofs.Worker.Resilience
import TaskRelay.Proofs.Worker.Stopping

/-!
# The loops of the world outlast failures

Whatever happens in a world, each of its consumer loops is one that takes its steps on what
its store says, so whatever holds of such loops on any store holds of it.
-/

set_option autoImplicit false

namespace TaskRelay
open scoped List

def LoopState.Loses (l l' : LoopState) : Prop :=
  l' = l ∨ l.isActive = true ∧ (l' = .panicked ∨ l' = .aborted)

theorem LoopState.Loses.trans {l l' l'' : LoopState} (h : l.Loses l') (h' : l'.Loses l'') :
    l.Loses l'' := by
  rcases h with rfl | ⟨ha, hl⟩
  · exact h'
  · rcases h' with rfl | ⟨ha', -⟩
    · exact Or.inr ⟨ha, hl⟩
    · rcases hl with rfl | rfl <;> cases ha'

theorem LoopState.Fades.absent {l : LoopState} (h : l.Fades .absent) : l = .absent := by
  rcases h with h | h | h | h
  · exact h.symm
  · cases h
  · cases h
  · cases h

def LoopState.ends (l l' : LoopState) : List Feat :=
  if l' = l then [] else
    match l' with
    | .finished => [.exits]
    | .panicked | .aborted => [.cut]
    | _ => []

theorem LoopState.ends_self (l : LoopState) : l.ends l = [] := if_pos rfl

theorem ends_state (c : Consumer) (s : ConsumerStep) :
    (LoopState.active c).ends s.state = Consumer.ends s.progress := by
  obtain ⟨store, handoff, notes, c' | c' | _ | _⟩ := s
  · exact ite_self _
  · exact ite_self _
  · rfl
  · rfl

namespace Post

inductive Comes (p : Post) (f' : Phase) : Prop
  | spawned (absent : p.loop = .absent) (loses : (LoopState.active .spawned).Loses f'.loop)
  | stays {f : Phase} (phase : p.phase = some f) (settings : f.settings = f'.settings)
      (present : f.loop ≠ .absent) (loses : f.loop.Loses f'.loop)

variable {p q : Post} {es h : List Event} {f' : Phase}

theorem Step.comes (hl : p.Lived h) (hs : p.Step es q) (hn : .looped ∉ es)
    (hf : q.phase = some f') (hp : f'.loop ≠ .absent) : p.Comes f' := by
  have same (h : p.phase = some f') : p.Comes f' := .stays h rfl hp (Or.inl rfl)
  cases hs with
  | created settings none =>
    cases hf
    exact absurd rfl hp
  | @ended f l phase active how =>
    cases hf
    refine .stays phase rfl (fun h => ?_) (Or.inr ⟨active, how⟩)
    rw [h] at active
    cases active
  | spawned phase first =>
    cases hf
    exact .spawned ((loop_some phase).trans ((hl.reached _ phase).unspawned first)) (Or.inl rfl)
  | looped => simp at hn
  | tried phase | stopped phase =>
    cases hf
    exact .stays phase rfl hp (Or.inl rfl)
  | _ => exact same hf

theorem Run.comes (hl : p.Lived h) (hr : Run p es q) (hn : .looped ∉ es)
    (hf : q.phase = some f') (hp : f'.loop ≠ .absent) : p.Comes f' := by
  induction hr generalizing h with
  | nil => exact .stays hf rfl hp (Or.inl rfl)
  | cons hs _ ih =>
    rw [List.mem_append, not_or] at hn
    cases ih (hl.step hs) hn.2 hf with
    | spawned absent loses => exact .spawned (absent ▸ hs.fades hn.1).absent loses
    | stays phase settings present loses =>
      cases hs.comes hl hn.1 phase present with
      | spawned absent loses' => exact .spawned absent (loses'.trans loses)
      | stays phase' settings' present' loses' =>
        exact .stays phase' (settings'.trans settings) present' (loses'.trans loses)

end Post

namespace Intake

theorem timely_append (cfg : StreamSettings) (ms ms' : List Move) (o : Intake) :
    Timely cfg (ms ++ ms') o ↔ Timely cfg ms o ∧ Timely cfg ms' (run cfg ms o) := by
  induction ms generalizing o with
  | nil => exact (and_iff_right trivial).symm
  | cons m ms ih => exact (and_congr_right fun _ => ih (o.move cfg m)).trans and_assoc.symm

theorem run_append (cfg : StreamSettings) (ms ms' : List Move) (o : Intake) :
    run cfg (ms ++ ms') o = run cfg ms' (run cfg ms o) := by
  induction ms generalizing o with
  | nil => rfl
  | cons m ms ih => exact ih _

def Reached (cfg : StreamSettings) (o : Intake) : Prop :=
  ∃ t h ms, Timely cfg ms (start t h) ∧ run cfg ms (start t h) = o

theorem reached_start (cfg : StreamSettings) (now : Nat) (handoff : Handoff Entry) :
    Reached cfg ⟨now, false, handoff, .active .spawned, []⟩ :=
  ⟨now, handoff, [], trivial, rfl⟩

theorem Reached.move {cfg : StreamSettings} {o : Intake} (h : Reached cfg o) {m : Move}
    (ht : o.TimelyMove m) : Reached cfg (o.move cfg m) := by
  obtain ⟨t, h₀, ms, timely, rfl⟩ := h
  exact ⟨t, h₀, ms ++ [m], (timely_append ..).mpr ⟨timely, ht, trivial⟩, run_append ..⟩

theorem Reached.stands {cfg : StreamSettings} {o : Intake} (h : Reached cfg o) : o.Stands := by
  obtain ⟨t, h₀, ms, timely, rfl⟩ := h
  exact run_stands cfg ms (start_stands t h₀) timely

section
variable {cfg : StreamSettings} {now : Nat} {stopped : Bool} {handoff : Handoff Entry}
  {loop : LoopState} {log : Feats} (h : Reached cfg ⟨now, stopped, handoff, loop, log⟩)
include h

theorem Reached.loses {loop' : LoopState} (hl : loop.Loses loop') :
    Reached cfg ⟨now, stopped, handoff, loop', log ++ (loop.ends loop').map (now, ·)⟩ := by
  rcases hl with rfl | ⟨ha, hl⟩
  · rwa [LoopState.ends_self, List.map_nil, List.append_nil]
  · obtain ⟨c, rfl⟩ : ∃ c, loop = .active c := by
      cases loop with
      | active c => exact ⟨c, rfl⟩
      | _ => cases ha
    rcases hl with rfl | rfl
    · exact h.move (m := .panic) trivial
    · exact h.move (m := .abort) trivial

/-- What others make of a loop and its handoff. -/
theorem Reached.others {stopped' : Bool} (hst : stopped = true → stopped' = true)
    (handoff' : Handoff Entry) {loop' : LoopState} (hl : loop.Loses loop') :
    Reached cfg ⟨now, stopped', handoff', loop', log ++
      (loop.ends loop' ++ if stopped' && !stopped then [Feat.told] else []).map (now, ·)⟩ := by
  have hr : Reached cfg ⟨now, stopped, handoff', loop', log ++ (loop.ends loop').map (now, ·)⟩ :=
    (h.loses hl).move (m := .use handoff') trivial
  rw [List.map_append, ← List.append_assoc]
  cases stopped with
  | true =>
    rw [hst rfl]
    simpa using hr
  | false =>
    cases stopped' with
    | true => exact hr.move (m := .stop) trivial
    | false => simpa using hr

end

end Intake

namespace World

def feats (w : World) (i : Nat) : Move → List Feat
  | .step (.loop j) =>
    match w.workers[i]? with
    | some k =>
      match k.consumer with
      | .active c =>
        if j = i then c.does k.settings w.view w.now (w.isCancelled k.stop) w.store else []
      | _ => []
    | none => []
  | _ => []

def heard (w : World) (i : Nat) : Bool :=
  w.workers[i]?.any fun k => k.consumer ≠ .absent && w.isCancelled k.stop

def shows (i : Nat) (w : World) (m : Move) : List Feat :=
  w.feats i m ++ ((w.post i).loop.ends ((w.move m).post i).loop ++
    if (w.move m).heard i && !w.heard i then [.told] else [])

def seen (i : Nat) : List Move → World → Feats
  | [], _ => []
  | m :: ms, w => (w.shows i m).map (w.now, ·) ++ seen i ms (w.move m)

section
variable {w : World} {i : Nat}

theorem heard_some {k : Worker} (hk : w.workers[i]? = some k) (hp : k.consumer ≠ .absent) :
    w.heard i = w.isCancelled k.stop := by
  simp [heard, hk, hp]

theorem heard_absent (ha : (w.post i).loop = .absent) : w.heard i = false := by
  cases hk : w.workers[i]? with
  | none => simp [heard, hk]
  | some k =>
    rw [post_loop hk] at ha
    simp [heard, hk, ha]

theorem feats_idle (hl : (w.post i).loop.isActive = false) (m : Move) : w.feats i m = [] := by
  unfold feats
  split
  · split
    · next k hk =>
      rw [post_loop hk] at hl
      split
      · next c hc =>
        rw [hc] at hl
        cases hl
      · rfl
    · rfl
  · rfl

theorem feats_spared {m : Move} (hm : m ≠ .step (.loop i)) : w.feats i m = [] := by
  unfold feats
  split
  · next j =>
    have hj : j ≠ i := fun h => hm (by rw [h])
    split
    · split
      · exact if_neg hj
      · rfl
    · rfl
  · rfl

/-- A move that leaves a loop as it is shows nothing of it. -/
theorem shows_still {m : Move} (hf : w.feats i m = [])
    (hl : ((w.move m).post i).loop = (w.post i).loop) (hh : (w.move m).heard i = w.heard i) :
    w.shows i m = [] := by
  rw [shows, hf, hl, hh, LoopState.ends_self, Bool.and_not_self]
  rfl

end

/-- The loop of a worker, once it was spawned, is one that takes its steps on what its store
says, with this log. -/
structure Mirrored (w : World) (i : Nat) (log : Feats) : Prop where
  absent : (w.post i).loop = .absent → log = []
  present : ∀ k, w.workers[i]? = some k → k.consumer ≠ .absent →
    Intake.Reached k.settings ⟨w.now, w.isCancelled k.stop, k.handoff, k.consumer, log⟩

theorem lull_timely {w : World} {n i : Nat} (hl : w.Lull n) {k : Worker}
    (hk : w.workers[i]? = some k) (log : Feats) :
    Intake.TimelyMove ⟨w.now, w.isCancelled k.stop, k.handoff, k.consumer, log⟩ (.wait n) := by
  cases hc : k.consumer with
  | active c =>
    obtain ⟨hw, hd⟩ := hl.loop hk hc
    cases c with
    | pausing d =>
      simp only [Consumer.woken, Bool.or_eq_false_iff, decide_eq_false_iff_not, not_le] at hw
      exact ⟨hw.1, hd d rfl hw.2⟩
    | reading r =>
      simp only [Consumer.woken, Bool.or_eq_false_iff] at hw
      exact hw.1
    | adding => rfl
    | _ => exact hw
  | _ => rfl

section
variable {w : World} (hw : w.Regular) {i : Nat} {log : Feats} (hm : w.Mirrored i log)
include hw hm

/-- The loop asks its store in the world what it asks its store on its own, and hears the same. -/
theorem Mirrored.own {k : Worker} {c : Consumer} (hk : w.workers[i]? = some k)
    (hc : k.consumer = .active c) : (w.move (.step (.loop i))).Mirrored i
      (log ++ (w.shows i (.step (.loop i))).map (w.now, ·)) := by
  obtain ⟨-, hk'⟩ := move_loop hk hc
  have hst : (w.move (.step (.loop i))).isCancelled k.stop = w.isCancelled k.stop := by
    have hheard := (hw.move (.step (.loop i))).stop_heard hk'
    exact hheard.trans (hw.stop_heard hk).symm
  have hpresent : (w.loopStep k c).state ≠ .absent := by
    unfold ConsumerStep.state
    split <;> nofun
  have hshows : w.shows i (.step (.loop i)) =
      c.does k.settings w.view w.now (w.isCancelled k.stop) w.store ++
        Consumer.ends (w.loopStep k c).progress := by
    have hh : (w.move (.step (.loop i))).heard i = w.heard i := by
      rw [heard_some hk' hpresent, heard_some hk (by rw [hc]; nofun)]
      exact hst
    have hf : w.feats i (.step (.loop i)) =
        c.does k.settings w.view w.now (w.isCancelled k.stop) w.store := by
      simp only [feats, hk, hc, if_true]
    rw [shows, hf, hh, Bool.and_not_self, post_loop hk', post_loop hk, hc]
    exact congrArg _ ((List.append_nil _).trans (ends_state c _))
  refine ⟨fun ha => ?_, fun k₁ hk₁ _ => ?_⟩
  · rw [post_loop hk'] at ha
    exact absurd ha hpresent
  · obtain rfl := Option.some.inj (hk₁.symm.trans hk')
    have hr := hm.present k hk (by rw [hc]; nofun)
    rw [hc] at hr
    have hturn := Consumer.step_hears k.settings w.view w.now (w.isCancelled k.stop) w.store
      k.handoff c
    have hmove := hr.move (m := .step (c.learns k.settings w.view w.now w.store)) trivial
    simp only [Intake.move, ← hturn, Consumer.asks_learns] at hmove
    rw [step_now hw.proper (.loop i), hshows]
    change Intake.Reached k.settings ⟨w.now, (w.move (.step (.loop i))).isCancelled k.stop, _, _, _⟩
    rw [hst]
    exact hmove

omit hw in
theorem Mirrored.wait {n : Nat} (hl : w.Lull n) :
    (w.move (.wait n)).Mirrored i (log ++ (w.shows i (.wait n)).map (w.now, ·)) := by
  rw [shows_still rfl rfl rfl, List.map_nil, List.append_nil]
  exact ⟨hm.absent, fun k hk hp => (hm.present k hk hp).move (lull_timely hl hk log)⟩

/-- A move in which a loop takes no step may spawn it, end it or tell it to stop. -/
theorem Mirrored.spared {m : Move} (hs : m ≠ .step (.loop i)) (hnow : (w.move m).now = w.now) :
    (w.move m).Mirrored i (log ++ (w.shows i m).map (w.now, ·)) := by
  obtain ⟨es, hl⟩ := hw.lived i
  have hrun := move_run hw.proper hl m
  have hun : .looped ∉ w.events i m := events_unlooped hs
  refine ⟨fun ha => ?_, fun k' hk' hp => ?_⟩
  · have ha₀ := (ha ▸ hrun.fades hun).absent
    rw [hm.absent ha₀, shows_still (feats_idle (by rw [ha₀]; rfl) m) (ha.trans ha₀.symm)
      ((heard_absent ha).trans (heard_absent ha₀).symm)]
    rfl
  · have hshows : w.shows i m = (w.post i).loop.ends k'.consumer ++
        if (w.move m).isCancelled k'.stop && !w.heard i then [.told] else [] := by
      rw [shows, feats_spared hs, List.nil_append, post_loop hk', heard_some hk' hp]
    rw [hnow, hshows]
    cases hrun.comes hl hun (post_phase i _ hk') hp with
    | spawned absent loses =>
      have hends : LoopState.absent.ends k'.consumer =
          (LoopState.active .spawned).ends k'.consumer := by
        rcases loses with he | ⟨-, he | he⟩ <;> rw [show k'.consumer = _ from he] <;> rfl
      rw [hm.absent absent, heard_absent absent, absent, hends]
      exact (Intake.reached_start k'.settings w.now k'.handoff).others nofun k'.handoff loses
    | stays phase settings present loses =>
      obtain ⟨k, hk, rfl⟩ := Option.map_eq_some_iff.mp phase
      have hr := hm.present k hk present
      rw [show k.settings = k'.settings from settings] at hr
      rw [heard_some hk present, post_loop hk]
      refine hr.others (fun hst => ?_) k'.handoff loses
      rw [hw.stop_heard hk] at hst
      obtain ⟨k₁, hk₁, ho⟩ := hw.isOver hk hst m
      rw [(hw.move m).stop_heard hk', Option.some.inj (hk'.symm.trans hk₁)]
      exact ho

theorem Mirrored.move {m : Move} (ht : w.TimelyMove m) :
    (w.move m).Mirrored i (log ++ (w.shows i m).map (w.now, ·)) := by
  rcases w.move_cases i m with ⟨k, c, rfl, hk, hc⟩ | hs
  · exact hm.own hw hk hc
  by_cases h : m = .step (.loop i)
  · have hidle := hs h
    subst h
    have hmove := move_idle hidle
    rw [shows_still (feats_idle hidle _) (by rw [hmove]) (by rw [hmove]), hmove, List.map_nil,
      List.append_nil]
    exact hm
  · rcases move_now hw.proper m with ⟨n, rfl⟩ | hnow
    · exact hm.wait ht
    · exact hm.spared hw h hnow

end

theorem run_mirrored (ms : List Move) {w : World} (hw : w.Regular) {i : Nat} {log : Feats}
    (hm : w.Mirrored i log) (ht : Timed ms w) : (run ms w).Mirrored i (log ++ seen i ms w) := by
  induction ms generalizing w log with
  | nil =>
    rw [seen, List.append_nil]
    exact hm
  | cons m ms ih =>
    rw [seen, ← List.append_assoc]
    exact ih (hw.move m) (hm.move hw ht.1) ht.2

theorem onStore_mirrored (view : StoreView) (ops : List Store.Op) (i : Nat) :
    (onStore view ops).Mirrored i [] := by
  refine ⟨fun _ => rfl, fun k hk => ?_⟩
  simp [onStore, start] at hk

end World

namespace Intake

theorem step_log (cfg : StreamSettings) (o : Intake) (said : Said) :
    ∃ more, (o.move cfg (.step said)).log = o.log ++ more := by
  simp only [move]
  split
  · exact ⟨_, rfl⟩
  · exact ⟨[], (List.append_nil _).symm⟩

/-- A loop at its top that was not told to stop reads. -/
theorem step_top_log (cfg : StreamSettings) {o : Intake} (hl : o.loop = .active .top)
    (hst : o.stopped = false) (said : Said) :
    ∃ more, (o.move cfg (.step said)).log = o.log ++ (o.now, .reads) :: more := by
  obtain ⟨now, stopped, handoff, loop, log⟩ := o
  dsimp only at hl hst
  subst hl hst
  exact ⟨_, rfl⟩

section
variable {o : Intake} (hs : o.Stands)
include hs

/-- A loop whose last read failed reads again when its pause is over, or ends as soon as it is
told to stop. -/
theorem Stands.retries (cfg : StreamSettings) {t : Nat} {e : StoreError}
    (hlast : o.log.last? = some (t, .got (.error e))) :
    o.now ≤ t + Consumer.readErrorBackoff ∧
    (o.stopped = true → ∀ said, (o.move cfg (.step said)).log = o.log ++ [(o.now, .exits)]) ∧
    (o.stopped = false → o.now = t + Consumer.readErrorBackoff → ∀ said said',
      ∃ more, (run cfg [.step said, .step said'] o).log = o.log ++ (o.now, .reads) :: more) := by
  have hf := hs.failed hlast
  obtain ⟨now, stopped, handoff, loop, log⟩ := o
  rcases hf with ⟨rfl, rfl⟩ | ⟨rfl, hn⟩
  · refine ⟨Nat.le_refl _, ?_, ?_⟩
    · rintro rfl said
      rfl
    · rintro rfl - said said'
      obtain ⟨as, ha⟩ := step_top_log cfg (o := ⟨_, false, handoff, _, log⟩) rfl rfl said
      obtain ⟨bs, hb⟩ := step_log cfg _ said'
      refine ⟨as ++ bs, hb.trans ?_⟩
      rw [ha]
      simp
  · refine ⟨hn, ?_, ?_⟩
    · rintro rfl said
      rfl
    · rintro rfl rfl said said'
      have hstep : Intake.move cfg ⟨t + Consumer.readErrorBackoff, false, handoff,
          .active (.pausing (t + Consumer.readErrorBackoff)), log⟩ (.step said) =
          ⟨t + Consumer.readErrorBackoff, false, handoff, .active .top, log⟩ := by
        simp [Intake.move, Consumer.hears, Consumer.step, Consumer.Turn.of, Consumer.Turn.state,
          ConsumerStep.state, Consumer.asks, Consumer.ends, noted]
      obtain ⟨bs, hb⟩ := step_top_log cfg (o := ⟨t + Consumer.readErrorBackoff, false, handoff,
        .active .top, log⟩) rfl rfl said'
      refine ⟨bs, ?_⟩
      rw [run, hstep]
      exact hb

/-- A loop that acknowledged an entry or tried to offers the next one with its next step. -/
theorem Stands.offersNext (cfg : StreamSettings) {t : Nat} {id : String}
    {r : Except StoreError Unit} {e : Entry} (hlast : o.log.last? = some (t, .acks id r))
    (hnext : o.log.next? = some e) :
    o.now = t ∧ ∀ said, (o.move cfg (.step said)).log = o.log ++ [(t, .offers e)] := by
  obtain ⟨rest, hloop, hnow⟩ := hs.acked hlast hnext
  obtain ⟨now, stopped, handoff, loop, log⟩ := o
  dsimp only at hloop hnow
  subst hloop hnow
  refine ⟨rfl, fun said => ?_⟩
  cases stopped <;> rfl

end

/-- A consumer loop on a store that answers anything, while others use the handoff in any way.
It has ended only if it was told to stop, panicked or was aborted. What it does fits what it
did: told to stop it starts no read; after a failed read it reads again a second later, unless
it is told to stop, and then it ends; after an acknowledgement, failed or not, it offers the
next entry that it read. So it offers the entries that it read in their order and once each,
and acknowledges those that it offered in their order and once each. The loops of a world are
such loops, and their logs are what the moves of the world show of them. -/
theorem loops_outlast_failures (cfg : StreamSettings) (now : Nat) (h : Handoff Entry)
    (ms : List Move) (timed : Timely cfg ms (start now h)) :
    let o := run cfg ms (start now h)
    (o.loop.isActive = false → o.stopped = true ∨ o.loop = .panicked ∨ o.loop = .aborted) ∧
    Fitting Feats.Fits o.log ∧
    (o.log.offered <+: o.log.received ∧ o.log.acked <+: o.log.offered.map Entry.id) ∧
    (∀ t e, o.log.last? = some (t, .got (.error e)) →
      o.now ≤ t + 1000 ∧
      (o.stopped = true → ∀ said, (o.move cfg (.step said)).log = o.log ++ [(o.now, .exits)]) ∧
      (o.stopped = false → o.now = t + 1000 → ∀ said said',
        ∃ more, (run cfg [.step said, .step said'] o).log = o.log ++ (o.now, .reads) :: more)) ∧
    (∀ t id r e, o.log.last? = some (t, .acks id r) → o.log.next? = some e →
      o.now = t ∧ ∀ said, (o.move cfg (.step said)).log = o.log ++ [(t, .offers e)]) ∧
    ∀ view ops ws, World.Timed ws (World.onStore view ops) →
      let w := World.run ws (World.onStore view ops)
      ∀ i k, w.workers[i]? = some k → k.consumer ≠ .absent →
        let log := World.seen i ws (World.onStore view ops)
        Reached k.settings ⟨w.now, w.isCancelled k.stop, k.handoff, k.consumer, log⟩ ∧
        (k.consumer.isActive = false →
          w.isCancelled k.stop = true ∨ k.consumer = .panicked ∨ k.consumer = .aborted) ∧
        Fitting Feats.Fits log ∧
        log.offered <+: log.received ∧ log.acked <+: log.offered.map Entry.id := by
  intro o
  have hs : o.Stands := run_stands cfg ms (start_stands now h) timed
  refine ⟨hs.ended, hs.fits, Feats.inOrder hs.fits, fun t e hlast => hs.retries cfg hlast,
    fun t id r e hlast hnext => hs.offersNext cfg hlast hnext, fun view ops ws ht => ?_⟩
  intro w i k hk hp log
  have hm := World.run_mirrored ws (World.onStore_regular view ops)
    (World.onStore_mirrored view ops i) ht
  have hr : Reached k.settings ⟨w.now, w.isCancelled k.stop, k.handoff, k.consumer, log⟩ :=
    hm.present k hk hp
  exact ⟨hr, hr.stands.ended, hr.stands.fits, Feats.inOrder hr.stands.fits⟩

def idle : Said := ⟨false, .done (.ok []), .ok (), .done (.error .closed), 0⟩

def failing : Said := { idle with read := .done (.error (.connection "refused")) }

def afterTake (ticket : Nat) : Handoff Entry :=
  ⟨none, .silent, ⟨ticket + 1, false, [], [ticket]⟩, false⟩

def troubled : List Move := [
  .step idle, .step failing, .wait 1000, .step idle, .step failing, .wait 1000, .step idle,
  .step { idle with read := .done (.ok [⟨"1-0", []⟩, ⟨"2-0", []⟩]) }, .step idle, .wait 70,
  .use (afterTake 0), .step idle, .step { idle with acked := .error .closed }, .step idle,
  .use (afterTake 1), .step idle, .step idle, .step idle, .step failing, .wait 400, .stop,
  .step idle]

theorem troubled_outlasted :
    let o := run .default troubled (start 0 .empty)
    Timely .default troubled (start 0 .empty) ∧
    (o.loop.isActive = false ∧ (o.stopped = true ∨ o.loop = .panicked ∨ o.loop = .aborted)) ∧
    (o.log.offered.map Entry.id = ["1-0", "2-0"] ∧ o.log.offered <+: o.log.received) ∧
    o.log.map Prod.fst = [0, 0, 1000, 1000, 2000, 2000, 2000, 2070, 2070, 2070, 2070, 2070, 2470,
      2470] ∧
    Fitting Feats.Fits o.log := by
  intro o
  have timed : Timely .default troubled (start 0 .empty) := by decide +kernel
  have h := loops_outlast_failures .default 0 .empty troubled timed
  have hl : o.loop.isActive = false := by decide +kernel
  exact ⟨timed, ⟨hl, h.1 hl⟩, ⟨by decide +kernel, h.2.2.1.1⟩, by decide +kernel, h.2.1⟩

end Intake

end TaskRelay
