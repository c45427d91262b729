import TaskRelay.Proofs.World.Visitors

/-!
# Dropped workers

A worker is there as long as somebody holds it or a call on it is under way. The move with
which that ends aborts its consumer loop. As nobody can call the worker any more, nothing is
done in its name from then on, and whoever closes the store is somebody else.
-/

set_option autoImplicit false

namespace TaskRelay
open scoped List

def Call.shuts? : Call → Option Nat
  | .shutting i _ => some i
  | _ => none

def Call.Akin (c c' : Call) : Prop := c'.worker? = c.worker? ∧ c'.shuts? = c.shuts?

namespace World

def engaged (w : World) (i : Nat) : Bool := w.workers[i]?.any fun k => k.held || w.inUse i

def Drops (w : World) (i : Nat) (m : Move) : Prop :=
  w.engaged i = true ∧ (w.move m).engaged i = false

instance (w : World) (i : Nat) (m : Move) : Decidable (w.Drops i m) :=
  inferInstanceAs (Decidable (_ ∧ _))

def Move.callee? : Move → Option Nat
  | .spawn i | .publish i _ | .request i | .shutdown i => some i
  | _ => none

def Incident.callee? : Incident → Option Nat
  | .move m => m.callee?
  | .visit _ => none

def Incident.loops (i : Nat) : Incident → Bool
  | .move (.step (.loop j)) => j == i
  | _ => false

section
variable {w : World}

theorem inUse_iff (hf : w.Filed) (i : Nat) :
    w.inUse i = true ↔ ∃ n c, w.call? n = some c ∧ c.worker? = some i := by
  simp only [inUse, List.any_eq_true, beq_iff_eq]
  constructor
  · rintro ⟨⟨n, c⟩, hm, hc⟩
    exact ⟨n, c, (Table.Sorted.mem_iff hf.sorted n c).mp hm, hc⟩
  · rintro ⟨n, c, hn, hc⟩
    exact ⟨(n, c), (Table.Sorted.mem_iff hf.sorted n c).mpr hn, hc⟩

theorem stepCall_akin {n : Nat} {c c' : Call} (hp : c.Plain)
    (hl : left? (w.stepCall n c).2 = some c') : c.Akin c' := by
  cases c with
  | adding a =>
    exact left?_within (f := .adding) (P := Call.Akin (.adding a)) (fun _ => ⟨rfl, rfl⟩) _ _ _ hl
  | publishing i p =>
    simp only [stepCall] at hl
    cases hk : w.workers[i]? with
    | none =>
      rw [hk] at hl
      cases hl
    | some k =>
      simp only [hk] at hl
      exact left?_within (f := .publishing i) (P := Call.Akin (.publishing i p))
        (fun _ => ⟨rfl, rfl⟩) _ _ _ hl
  | shutting i s =>
    simp only [stepCall] at hl
    cases hk : w.workers[i]? with
    | none =>
      rw [hk] at hl
      cases hl
    | some k =>
      simp only [hk] at hl
      exact left?_within (f := .shutting i) (P := Call.Akin (.shutting i s))
        (fun _ => ⟨rfl, rfl⟩) _ _ _ hl
  | requesting i r =>
    simp only [stepCall] at hl
    cases hk : w.workers[i]? with
    | none =>
      rw [hk] at hl
      cases hl
    | some k =>
      simp only [hk] at hl
      generalize r.step w.now k = t at hl
      obtain ⟨k', ns, p⟩ := t
      rcases p with r' | r' | e | e
      · cases hl
        exact ⟨rfl, rfl⟩
      · cases hl
        exact ⟨rfl, rfl⟩
      · cases hl
      · cases hl
  | _ => exact False.elim hp

/-- A call was under way before, or the move begins it. -/
theorem call_source (hw : w.Proper) {m : Move} {n : Nat} {c : Call}
    (hc : (w.move m).call? n = some c) :
    (∃ c₀, w.call? n = some c₀ ∧ c₀.Akin c) ∨ w.begins? m = some c := by
  by_cases hm : m = .step (.call n)
  · subst hm
    cases hc₀ : w.call? n with
    | none =>
      rw [move, step_gone hc₀, hc₀] at hc
      cases hc
    | some c₀ =>
      rw [(step_own hw hc₀).1] at hc
      exact Or.inl ⟨c₀, rfl, stepCall_akin (hw.calls n c₀ hc₀) hc⟩
  · rcases move_called hw hm hc with h | ⟨-, h⟩
    · exact Or.inl ⟨c, h, rfl, rfl⟩
    · exact Or.inr h

def Unshut (w : World) (i : Nat) : Prop := ∀ n c, w.call? n = some c → c.shuts? ≠ some i

theorem Unshut.meet {i : Nat} (hu : w.Unshut i) (hw : w.Proper) {x : Incident}
    (hx : x ≠ .move (.shutdown i)) : (w.meet x).Unshut i := by
  cases x with
  | visit op => exact hu
  | move m =>
    intro n c hc hs
    rcases call_source hw hc with ⟨c₀, hc₀, -, he⟩ | hb
    · exact hu n c₀ hc₀ (he.symm.trans hs)
    · cases m <;> cases hb <;> cases hs
      exact hx rfl

theorem Unshut.through {i : Nat} (hu : w.Unshut i) (hw : w.Regular) {xs : List Incident}
    (hx : .move (.shutdown i) ∉ xs) : (through xs w).Unshut i := by
  induction xs generalizing w with
  | nil => exact hu
  | cons x xs ih =>
    rw [List.mem_cons, not_or] at hx
    exact ih (hu.meet hw.proper fun h => hx.1 h.symm) (hw.meet x) hx.2

end

section
variable {w : World}

theorem setWorker_held {j : Nat} {k k' : Worker} (hk : w.workers[j]? = some k)
    (h : k'.held = k.held) (i : Nat) :
    (w.setWorker j k').workers[i]?.map Worker.held = w.workers[i]?.map Worker.held := by
  by_cases hj : j = i
  · subst hj
    rw [setWorker, List.getElem?_set_self (List.getElem?_eq_some_iff.mp hk).1, hk]
    exact congrArg some h
  · rw [setWorker, List.getElem?_set_ne hj]

theorem loop_held (i j : Nat) : (w.move (.step (.loop j))).workers[i]?.map Worker.held =
    w.workers[i]?.map Worker.held := by
  rcases w.move_cases j (.step (.loop j)) with ⟨k, c, -, hk, hc⟩ | h
  · obtain ⟨s, hs⟩ :
        ∃ s, c.step k.settings w.view w.now (w.isCancelled k.stop) w.store k.handoff = s := ⟨_, rfl⟩
    have hm : w.move (.step (.loop j)) = _ := stepLoop_active hk hc hs
    have hk' : (({ w with store := s.store } : World).notes s.notes).workers[j]? = some k := by
      rwa [notes_workers]
    rw [hm]
    refine (setWorker_held hk' ?_ i).trans (by rw [notes_workers])
    rfl
  · rw [move_idle (h rfl)]

theorem request_held (r : Request) (now : Nat) (k : Worker) : (r.step now k).1.held = k.held := by
  have after (n : Nat) (h : Handoff Entry) (p : Progress Take (Taken Entry)) :
      (Request.afterTake k n h p).1.held = k.held := by
    rcases p with t | t | ⟨e | _ | _⟩ <;> rfl
  cases r with
  | fresh =>
    simp only [Request.step, Worker.spawn]
    split <;> rfl
  | between n =>
    simp only [Request.step]
    split
    · exact after _ _ _
    · rfl
  | taking n t => exact after _ _ _

theorem shutdown_held (s : Shutdown) (now : Nat) (tokens : Cancellations) (store : Store)
    (k : Worker) : (s.step now tokens store k).worker.held = k.held := by
  cases s with
  | fresh =>
    simp only [Shutdown.step]
    split <;> rfl
  | joining d =>
    simp only [Shutdown.step]
    split
    case h_5 => split <;> rfl
    all_goals rfl
  | closing => rfl

theorem stepCall_held {c : Call} (hp : c.Plain) (n i : Nat) :
    (w.stepCall n c).1.workers[i]?.map Worker.held = w.workers[i]?.map Worker.held := by
  cases c with
  | adding a => rfl
  | publishing j p =>
    cases hk : w.workers[j]? with
    | none => simp only [stepCall, hk]
    | some k => simp only [stepCall, hk, notes_workers]
  | shutting j s =>
    cases hk : w.workers[j]? with
    | none => simp only [stepCall, hk]
    | some k =>
      simp only [stepCall, hk, notes_workers]
      exact setWorker_held (w := { w with tokens := _, store := _ }) hk (shutdown_held ..) i
  | requesting j r =>
    cases hk : w.workers[j]? with
    | none => simp only [stepCall, hk]
    | some k =>
      have hs := setWorker_held hk (request_held r w.now k) i
      simp only [stepCall, hk]
      generalize r.step w.now k = t at hs ⊢
      obtain ⟨k', ns, p⟩ := t
      rcases p with r' | r' | e | e <;> simpa using hs
  | _ => exact False.elim hp

theorem engaged_iff {i : Nat} : w.engaged i = true ↔
    ∃ held, w.workers[i]?.map Worker.held = some held ∧ (held = true ∨ w.inUse i = true) := by
  cases hk : w.workers[i]? <;> simp [engaged, hk]

/-- A move that does not drop workers leaves somebody with each worker that had somebody. -/
theorem move_engaged (hw : w.Regular) {i : Nat} (he : w.engaged i = true) (m : Move) :
    (w.move m).engaged i = true ∨ ∃ v : World, w.move m = v.sweep := by
  obtain ⟨held, hheld, huse⟩ := engaged_iff.mp he
  obtain ⟨k, hk, -⟩ := Option.map_eq_some_iff.mp hheld
  have keep (hs : (w.move m).workers[i]?.map Worker.held = w.workers[i]?.map Worker.held)
      (hc : ∀ n c, w.call? n = some c → c.worker? = some i →
        ∃ c', (w.move m).call? n = some c' ∧ c'.worker? = some i) :
      (w.move m).engaged i = true := by
    refine engaged_iff.mpr ⟨held, hs.trans hheld, huse.imp_right fun hu => ?_⟩
    obtain ⟨n, c, hn, hi⟩ := (inUse_iff hw.filed i).mp hu
    obtain ⟨c', hn', hi'⟩ := hc n c hn hi
    exact (inUse_iff (hw.move m).filed i).mpr ⟨n, c', hn', hi'⟩
  have kept (hs : ∀ n, m ≠ .step (.call n)) (hd : ∀ n, m ≠ .drop n) (n : Nat) (c : Call)
      (hc : w.call? n = some c) (hi : c.worker? = some i) :
      ∃ c', (w.move m).call? n = some c' ∧ c'.worker? = some i :=
    ⟨c, call_kept hw.proper hw.filed hc (hs n) fun h => absurd h (hd n), hi⟩
  cases m with
  | step a =>
    cases a with
    | loop j => exact Or.inl (keep (loop_held i j) (kept (by simp) (by simp)))
    | call n =>
      cases hc : w.call? n with
      | none =>
        rw [move, step_gone hc]
        exact Or.inl he
      | some c =>
        have hm : w.move (.step (.call n)) = _ := step_call hc
        have hs := stepCall_held (w := w) (hw.proper.calls n c hc) n i
        cases hp : (w.stepCall n c).2 with
        | done o => exact Or.inr ⟨_, by rw [hm, hp, conclude, finish]⟩
        | running c' | waiting c' =>
          refine Or.inl (keep (by rw [hm, hp]; exact hs) fun n' c₁ hc₁ hi => ?_)
          by_cases hn : n' = n
          · subst hn
            obtain rfl := Option.some.inj (hc.symm.trans hc₁)
            have hl : left? (w.stepCall n' c).2 = some c' := by rw [hp]; rfl
            refine ⟨c', (step_own hw.proper hc).1.trans hl, ?_⟩
            exact (stepCall_akin (hw.proper.calls n' c hc) hl).1.trans hi
          · exact ⟨c₁, (step_other hw.proper hn).trans hc₁, hi⟩
  | drop n =>
    simp only [move, dropCall]
    split
    · next j r hc =>
      cases hj : w.workers[j]? with
      | some k' => exact Or.inr ⟨_, rfl⟩
      | none =>
        refine Or.inl ?_
        have hm : w.move (.drop n) = { w with calls := Table.erase n w.calls } := by
          simp only [move, dropCall, hc, hj]
        have h := keep (by rw [hm]) fun n' c₁ hc₁ hi => ?_
        · simpa only [move, dropCall, hc, hj] using h
        · have hn : n' ≠ n := by
            rintro rfl
            obtain rfl := Option.some.inj (hc.symm.trans hc₁)
            cases hi
            cases hk.symm.trans hj
          exact ⟨c₁, by rw [hm, call?, Table.get?_erase_of_ne hn]; exact hc₁, hi⟩
    · exact Or.inr ⟨_, rfl⟩
    · exact Or.inr ⟨_, rfl⟩
    · exact Or.inl he
  | letGo j =>
    simp only [move, letGo]
    split
    · exact Or.inr ⟨_, rfl⟩
    · exact Or.inl he
  | spawn j =>
    refine Or.inl (keep ?_ (kept (by simp) (by simp)))
    simp only [move]
    split
    · next k' hk' =>
      refine setWorker_held hk' ?_ i
      unfold Worker.spawn
      split <;> rfl
    · rfl
  | panic j =>
    refine Or.inl (keep ?_ (kept (by simp) (by simp)))
    simp only [move]
    split
    · next k' hk' =>
      split
      · refine setWorker_held hk' ?_ i
        rfl
      · rfl
    · rfl
  | create settings handler =>
    refine Or.inl (keep ?_ (kept (by simp) (by simp)))
    simp only [move, createWorker]
    cases w.store.createGroup settings.stream settings.group with
    | error e => rfl
    | ok store =>
      have hi := (List.getElem?_eq_some_iff.mp hk).1
      exact congrArg _ (List.getElem?_append_left hi)
  | createGroup q =>
    refine Or.inl (keep ?_ (kept (by simp) (by simp)))
    simp only [move]
    split <;> rfl
  | _ => exact Or.inl (keep rfl (kept (by simp) (by simp)))

end

structure Gone (w : World) (i : Nat) : Prop where
  idle : (w.post i).loop.isActive = false
  unused : ∀ n c, w.call? n = some c → c.worker? ≠ some i

section
variable {w : World}

theorem Gone.apart {i j : Nat} (hg : w.Gone i) {k : Worker} {c : Consumer}
    (hk : w.workers[j]? = some k) (hc : k.consumer = .active c) : j ≠ i := by
  rintro rfl
  have hidle := hg.idle
  rw [post_loop hk, hc] at hidle
  cases hidle

theorem Gone.unvisited {i : Nat} (hg : w.Gone i) (n : Nat) : visits i w.calls n = none := by
  cases hc : w.call? n with
  | none => exact congrArg (Option.bind · _) hc
  | some c =>
    refine (congrArg (Option.bind · _) hc).trans ?_
    have hu := hg.unused n c hc
    cases c with
    | publishing j p | requesting j r | shutting j s => exact if_neg fun h => hu (by rw [h]; rfl)
    | _ => rfl

theorem sweep_idle {i : Nat} (hn : w.sweep.engaged i = false) :
    (w.sweep.post i).loop.isActive = false := by
  cases hk : w.workers[i]? with
  | none => simp [post, sweep, hk, Post.loop, LoopState.isActive]
  | some k =>
    have hs : w.sweep.workers[i]? = some (if k.held || w.inUse i || !k.consumer.isActive then k
        else { k with consumer := .aborted }) := by
      simp only [sweep, List.getElem?_mapIdx, hk, Option.map_some]
    rw [post_loop hs]
    split at hs
    · next h =>
      have hu : (k.held || w.inUse i) = false := by
        rw [engaged, hs] at hn
        exact hn
      rw [if_pos h]
      simpa [hu] using h
    · next h =>
      rw [if_neg h]
      rfl

variable (hw : w.Regular)
include hw

/-- A worker that is dropped is left alone with a loop that takes no step. -/
theorem Drops.gone {i : Nat} {m : Move} (hd : w.Drops i m) : (w.move m).Gone i := by
  obtain ⟨he, hn⟩ := hd
  rcases move_engaged hw he m with h | ⟨v, hv⟩
  · cases h.symm.trans hn
  · refine ⟨?_, fun n c hc hi => ?_⟩
    · rw [hv] at hn ⊢
      exact sweep_idle hn
    · obtain ⟨held, hheld, -⟩ := engaged_iff.mp he
      obtain ⟨k, hk, -⟩ := Option.map_eq_some_iff.mp hheld
      obtain ⟨k', hk', -⟩ := hw.worker_move hk m
      have hu := (inUse_iff (hw.move m).filed i).mpr ⟨n, c, hc, hi⟩
      have he' := engaged_iff.mpr ⟨k'.held, by rw [hk']; rfl, Or.inr hu⟩
      cases he'.symm.trans hn

/-- To a worker that nobody uses or calls nothing happens but that its loop is ended. -/
theorem Gone.lives {i : Nat} (hg : w.Gone i) {m : Move} (hm : m.callee? ≠ some i) :
    Post.Run (w.post i) [] ((w.move m).post i) := by
  have unborn := hg.unvisited w.nextCall
  have other {j : Nat} (h : some j ≠ some i) : j ≠ i := fun he => h (congrArg some he)
  cases m with
  | step a =>
    cases a with
    | loop j =>
      rcases w.move_cases j (.step (.loop j)) with ⟨k, c, -, hk, hc⟩ | h
      · obtain ⟨s, hs⟩ :
            ∃ s, c.step k.settings w.view w.now (w.isCancelled k.stop) w.store k.handoff = s :=
          ⟨_, rfl⟩
        have hm : w.move (.step (.loop j)) = _ := stepLoop_active hk hc hs
        have hstore : s.store.closed = w.store.closed := hs ▸ (c.step_open ..).store
        rw [hm, post_setWorker_ne i _ (hg.apart hk hc), post_notes, post_store hstore]
        exact .nil _
      · rw [move_idle (h rfl)]
        exact .nil _
    | call n =>
      cases hc : w.call? n with
      | none =>
        rw [move, step_gone hc]
        exact .nil _
      | some c =>
        have hm : w.move (.step (.call n)) = _ := step_call hc
        have hu := hg.unused n c hc
        rw [hm]
        cases c with
        | adding a => exact foreign_add hc
        | publishing j p => exact foreign_publish (other hu) hc
        | requesting j r => exact foreign_request (other hu) hc
        | shutting j s => exact foreign_shutdown (other hu) hc
        | _ => exact False.elim (hw.proper.calls n _ hc)
  | publish j task => exact (begin_lives unborn _).1 (if_neg (other hm))
  | request j => exact (begin_lives unborn _).1 (if_neg (other hm))
  | shutdown j => exact (begin_lives unborn _).1 (if_neg (other hm))
  | add stream fields maxLen => exact (begin_lives unborn _).1 rfl
  | spawn j =>
    simp only [move]
    split
    · rw [post_setWorker_ne i w (other hm)]
      exact .nil _
    · exact .nil _
  | wait millis => exact (Post.Step.wait millis).run
  | create settings handler => exact create_lives settings handler
  | drop n => exact drop_lives n
  | letGo j => exact letGo_lives j
  | panic j => exact panic_lives j
  | createGroup q =>
    simp only [move]
    split
    · next h =>
      rw [post_store (Store.createGroup_closed w.store h)]
      exact .nil _
    · exact .nil _
  | closeStore => exact Post.Step.shut.run
  | delayAdds | failReads | failAcks | look => exact .nil _

theorem Gone.move {i : Nat} (hg : w.Gone i) {m : Move} (hm : m.callee? ≠ some i) :
    (w.move m).Gone i := by
  have hl := hg.lives hw hm
  refine ⟨?_, fun n c hc hi => ?_⟩
  · rcases hl.fades (by simp) with he | he | he | he
    · rw [he]
      exact hg.idle
    · rw [he]
      rfl
    · rw [he]
      rfl
    · have hs := Post.justSpawned_iff.mp (hl.unspawned (by simp) (Post.justSpawned_iff.mpr he))
      have hidle := hg.idle
      rw [hs] at hidle
      cases hidle
  · rcases call_source hw.proper hc with ⟨c₀, hc₀, ha⟩ | hb
    · exact hg.unused n c₀ hc₀ (ha.1.symm.trans hi)
    · cases m <;> cases hb <;> cases hi
      all_goals exact hm rfl

theorem Gone.meet {i : Nat} (hg : w.Gone i) {x : Incident} (hx : x.callee? ≠ some i) :
    (w.meet x).Gone i := by
  cases x with
  | move m => exact hg.move hw hx
  | visit op => exact ⟨hg.idle, hg.unused⟩

omit hw in
/-- Nothing is done in the name of a worker that is gone. -/
theorem Gone.silent {i : Nat} (hg : w.Gone i) (q : Queue) (x : Incident) :
    Ledger.of i (w.incidentDeeds q x) = [] := by
  cases x with
  | visit op => rfl
  | move m =>
    refine List.eq_nil_iff_forall_not_mem.mpr fun d hd => ?_
    have hs : w.Spares i m := fun _ => hg.idle
    obtain ⟨n, r, e, -, hc, -⟩ := hs.deeds q d hd
    exact hg.unused n _ hc rfl

theorem Gone.through {i : Nat} (hg : w.Gone i) {xs : List Incident}
    (hx : ∀ x ∈ xs, x.callee? ≠ some i) : (World.through xs w).Gone i := by
  induction xs generalizing w with
  | nil => exact hg
  | cons x xs ih =>
    obtain ⟨hx, hxs⟩ := List.forall_mem_cons.mp hx
    exact ih (hw.meet x) (hg.meet hw hx) hxs

theorem Gone.untold {i : Nat} (hg : w.Gone i) (q : Queue) {xs : List Incident}
    (hx : ∀ x ∈ xs, x.callee? ≠ some i) : Ledger.of i (tale q xs w) = [] := by
  induction xs generalizing w with
  | nil => rfl
  | cons x xs ih =>
    obtain ⟨hx, hxs⟩ := List.forall_mem_cons.mp hx
    rw [tale, Ledger.of_append, hg.silent q x, ih (hw.meet x) (hg.meet hw hx) hxs]
    rfl

omit hw in
theorem Gone.unmoved {i : Nat} (hg : w.Gone i) {x : Incident} (hx : x.loops i = true) :
    w.meet x = w := by
  obtain ⟨j, rfl⟩ : ∃ j, x = .move (.step (.loop j)) := by
    unfold Incident.loops at hx
    split at hx
    · exact ⟨_, rfl⟩
    · cases hx
  obtain rfl : j = i := beq_iff_eq.mp hx
  exact move_idle hg.idle

/-- A run goes as if the loop of a worker that is gone were left out. -/
theorem Gone.without {i : Nat} (hg : w.Gone i) {xs : List Incident}
    (hx : ∀ x ∈ xs, x.callee? ≠ some i) :
    World.through (xs.filter fun x => !x.loops i) w = World.through xs w := by
  induction xs generalizing w with
  | nil => rfl
  | cons x xs ih =>
    obtain ⟨hx, hxs⟩ := List.forall_mem_cons.mp hx
    have hrest := ih (hw.meet x) (hg.meet hw hx) hxs
    cases hl : x.loops i with
    | false =>
      rw [List.filter_cons_of_pos (by simp [hl])]
      exact hrest
    | true =>
      rw [hg.unmoved hl] at hrest
      rw [List.filter_cons_of_neg (by simp [hl]), World.through, hg.unmoved hl]
      exact hrest

theorem Gone.inUse {i : Nat} (hg : w.Gone i) : w.inUse i = false := by
  refine Bool.eq_false_iff.mpr fun hu => ?_
  obtain ⟨n, c, hc, hi⟩ := (inUse_iff hw.filed i).mp hu
  exact hg.unused n c hc hi

end

inductive ClosesBeside (w : World) (i : Nat) : Incident → Prop
  | hand : ClosesBeside w i (.move .closeStore)
  | visitor : ClosesBeside w i (.visit .close)
  | shutdown {n j : Nat} {s : Shutdown} (call : w.call? n = some (.shutting j s)) (other : j ≠ i) :
      ClosesBeside w i (.move (.step (.call n)))

section
variable {w : World} (hw : w.Proper)
include hw

theorem call_closes {n : Nat} (hc : (w.move (.step (.call n))).store.closed ≠ w.store.closed) :
    ∃ j s, w.call? n = some (.shutting j s) := by
  cases hn : w.call? n with
  | none =>
    rw [move, step_gone hn] at hc
    exact absurd rfl hc
  | some c =>
    have hm : w.move (.step (.call n)) = _ := step_call hn
    rw [hm, conclude_store] at hc
    cases c with
    | adding a => exact absurd (a.resume_closed w.store w.now) hc
    | publishing i p =>
      cases hk : w.workers[i]? with
      | none =>
        simp only [stepCall, hk] at hc
        exact absurd rfl hc
      | some k =>
        simp only [stepCall, hk, notes_store] at hc
        exact absurd (p.step_closed w.store w.now k) hc
    | requesting i r =>
      cases hk : w.workers[i]? with
      | none =>
        simp only [stepCall, hk] at hc
        exact absurd rfl hc
      | some k =>
        rw [(request_call hw hk n r).1] at hc
        exact absurd rfl hc
    | shutting i s => exact ⟨i, s, rfl⟩
    | _ => exact False.elim (hw.calls n _ hn)

theorem move_closes {m : Move} (hc : (w.move m).store.closed ≠ w.store.closed) :
    m = .closeStore ∨ ∃ n j s, m = .step (.call n) ∧ w.call? n = some (.shutting j s) := by
  cases m with
  | closeStore => exact Or.inl rfl
  | step a =>
    cases a with
    | call n =>
      obtain ⟨j, s, hs⟩ := call_closes hw hc
      exact Or.inr ⟨n, j, s, rfl, hs⟩
    | loop i =>
      refine absurd ?_ hc
      rcases w.move_cases i (.step (.loop i)) with ⟨k, c, -, hk, hc⟩ | h
      · rw [(move_loop hk hc).1]
        exact (c.step_open ..).store
      · rw [move_idle (h rfl)]
  | create settings handler =>
    refine absurd ?_ hc
    simp only [move, createWorker]
    cases hg : w.store.createGroup settings.stream settings.group with
    | error e => rfl
    | ok store => exact Store.createGroup_closed w.store hg
  | createGroup q =>
    refine absurd ?_ hc
    simp only [move]
    split
    · next h => exact Store.createGroup_closed w.store h
    · rfl
  | drop n => exact absurd (congrArg Store.closed (drop_store w n)) hc
  | letGo i => exact absurd (congrArg Store.closed (letGo_store w i)) hc
  | spawn i =>
    refine absurd ?_ hc
    simp only [move]
    split <;> rfl
  | panic i =>
    refine absurd ?_ hc
    simp only [move]
    split
    · split <;> rfl
    · rfl
  | _ => exact absurd rfl hc

/-- As long as nobody shuts down worker `i`, whoever closes the store is somebody else. -/
theorem Unshut.closes {i : Nat} (hu : w.Unshut i) {x : Incident}
    (hc : (w.meet x).store.closed ≠ w.store.closed) : w.ClosesBeside i x := by
  cases x with
  | visit op =>
    by_cases hop : op = .close
    · subst hop
      exact .visitor
    · exact absurd (w.store.obey_closed hop) hc
  | move m =>
    rcases move_closes hw hc with rfl | ⟨n, j, s, rfl, hs⟩
    · exact .hand
    · exact .shutdown hs fun h => hu n _ hs (congrArg some h)

omit hw in
theorem Gone.unshut {i : Nat} (hg : w.Gone i) : w.Unshut i := by
  intro n c hc hs
  cases c with
  | shutting j s => exact hg.unused n _ hc hs
  | _ => cases hs

end

/-- From the drop of worker `i` on whoever closes the store is somebody else. -/
theorem Drops.closes {w : World} (hw : w.Regular) {i : Nat} {m : Move} (hd : w.Drops i m)
    (hu : w.Unshut i) {after : List Incident} (uncalled : ∀ x ∈ after, x.callee? ≠ some i)
    {pre post : List Incident} {x : Incident} (hsplit : .move m :: after = pre ++ x :: post)
    (hc : ((World.through pre w).meet x).store.closed ≠ (World.through pre w).store.closed) :
    (World.through pre w).ClosesBeside i x := by
  cases pre with
  | nil => exact hu.closes hw.proper hc
  | cons y pre =>
    obtain ⟨rfl, hrest⟩ := List.cons.inj hsplit
    have huncalled : ∀ x ∈ pre, x.callee? ≠ some i := fun x hx =>
      uncalled x (hrest ▸ List.mem_append_left _ hx)
    have hgone := (hd.gone hw).through (hw.move m) huncalled
    exact hgone.unshut.closes ((hw.move m).through pre).proper hc

end World

end TaskRelay
