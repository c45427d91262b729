import TaskRelay.Proofs.Runner.Works

/-!
# Acts are steps of the flow

Seen from any queue an act is one step of its flow, with the deeds of the act, after which
some loops may have ended. The calls of a world with runners are of more kinds than those of
workers and producers alone, but most moves look at no call, so what is known of them applies
as it stands.
-/

set_option autoImplicit false

namespace TaskRelay.World

theorem not_returned_added (i : Nat) (e : Entry) (sh sh' : Shelf) :
    .returned i e ∉ additions sh sh' := by
  simp [additions]

theorem not_returned_loop (i : Nat) (e : Entry) (j : Nat) (gained : List (Nat × Fields))
    (l l' : LoopState) : .returned i e ∉ loopDeeds j gained l l' := by
  unfold loopDeeds
  split <;> simp

def Move.Aside : Move → Prop
  | .step (.call _) | .drop _ | .letGo _ => False
  | _ => True

section
variable {w : World} {m : Move} (hm : m.Aside)
include hm

theorem aside_bare :
    (w.move m).store = (w.bare.move m).store ∧ (w.move m).workers = (w.bare.move m).workers := by
  cases m with
  | step a =>
    cases a with
    | call n => exact False.elim hm
    | loop i =>
      simp only [move, step]
      cases hk : w.workers[i]? with
      | none => simp [stepLoop, bare, hk]
      | some k =>
        have hk' : w.bare.workers[i]? = some k := hk
        cases hc : k.consumer with
        | active c =>
          rw [stepLoop_active hk hc rfl, stepLoop_active hk' hc rfl]
          simp [setWorker, bare, isCancelled]
        | _ => simp [stepLoop, bare, hk, hc]
  | drop | letGo => exact False.elim hm
  | create settings handler =>
    simp only [move, createWorker, bare]
    cases w.store.createGroup settings.stream settings.group <;> exact ⟨rfl, rfl⟩
  | spawn i =>
    simp only [move, bare]
    split <;> exact ⟨rfl, rfl⟩
  | panic i =>
    simp only [move, bare]
    split
    · split <;> exact ⟨rfl, rfl⟩
    · exact ⟨rfl, rfl⟩
  | createGroup q =>
    simp only [move, bare]
    split <;> exact ⟨rfl, rfl⟩
  | _ => exact ⟨rfl, rfl⟩

omit hm in
/-- A loop empties its slot only to add the entry again. -/
theorem loop_keeps (hw : w.Staffed) (i : Nat) {ds : Queue → List Deed} :
    w.Keeps ds (w.move (.step (.loop i))) := by
  simp only [move, step]
  cases hk : w.workers[i]? with
  | none => exact Staffs.keeps (.same (by simp [stepLoop, hk]))
  | some k =>
    cases hc : k.consumer with
    | active c =>
      obtain ⟨s, hs⟩ : ∃ s, c.step k.settings w.view w.now (w.isCancelled k.stop) w.store
          k.handoff = s := ⟨_, rfl⟩
      have hp : k.Proper := hw.workers k (List.mem_of_getElem? hk)
      have hown : c.Own k.settings := by simpa [hc, LoopState.Own] using hp.own
      have hstep : LoopStep i k c w.store s := hs ▸ loop_step (hw.shelves k.queue) hown _ _
      have hfit : Station.Fit ⟨c.stage, k.handoff.slot⟩ := by
        have h := hw.fits k.queue _ (List.mem_of_getElem? (flow_station hk k.queue))
        rwa [Worker.station_own rfl, hc] at h
      rw [stepLoop_active hk hc hs]
      intro j k₁ hk₁
      by_cases hij : i = j
      · subst hij
        obtain rfl : k = k₁ := Option.some.inj (hk.symm.trans hk₁)
        refine ⟨{ k with handoff := s.handoff, consumer := s.state }, ?_, rfl, rfl, ?_⟩
        · simp [setWorker, (List.getElem?_eq_some_iff.mp hk).1]
        · intro e he
          rcases hstep.work.slot hfit he with h | h | h
          · exact Or.inl h
          · rcases List.mem_append.mp h with h | h
            · exact absurd h (not_returned_added i e _ _)
            · exact absurd h (not_returned_loop i e _ _ _ _)
          · exact Or.inr (Or.inr h)
      · refine ⟨k₁, ?_, rfl, rfl, fun e he => Or.inl he⟩
        rw [setWorker, List.getElem?_set_ne hij, notes_workers]
        exact hk₁
    | _ => exact Staffs.keeps (.same (by simp [stepLoop, hk, hc]))

theorem aside_keeps (hw : w.Staffed) : w.Keeps (fun q => w.deeds q m) (w.move m) := by
  cases m with
  | step a =>
    cases a with
    | call n => exact False.elim hm
    | loop i => exact loop_keeps hw i
  | drop | letGo => exact False.elim hm
  | create settings handler =>
    simp only [move, createWorker]
    cases w.store.createGroup settings.stream settings.group with
    | error e => exact Staffs.keeps (.same rfl)
    | ok store => exact Staffs.keeps (.joined rfl)
  | spawn i =>
    simp only [move]
    split
    · next k hk =>
      have hs := spawn_staff (i := i) (hw.workers k (List.mem_of_getElem? hk))
      exact Staffs.keeps (.set hk (hs.stays.weaken _))
    · exact Staffs.keeps (.same rfl)
  | panic i =>
    simp only [move]
    split
    · next k hk =>
      split
      · exact Staffs.keeps (.set hk ⟨rfl, rfl, Or.inl rfl⟩)
      · exact Staffs.keeps (.same rfl)
    · exact Staffs.keeps (.same rfl)
  | createGroup q =>
    simp only [move]
    split <;> exact Staffs.keeps (.same rfl)
  | _ => exact Staffs.keeps (.same rfl)

theorem aside_passes (hw : w.Staffed) : w.Passes (fun q => w.deeds q m) (w.move m) := by
  obtain ⟨hs, hk⟩ := aside_bare (w := w) hm
  have h := move_follows hw.bare m
  have hd (q : Queue) : w.bare.deeds q m = w.deeds q m := by
    unfold deeds
    rw [hs]
    cases m with
    | step a =>
      cases a with
      | call n => exact False.elim hm
      | loop i => simp only [agentDeeds, hs, hk, bare]
    | _ => rfl
  refine ⟨hk ▸ h.workers, aside_keeps hm hw, fun q => ?_⟩
  rw [flow_congr hs hk, ← hd q]
  exact h.flow q

end

theorem drop_store (w : World) (n : Nat) : (w.dropCall n).store = w.store := by
  unfold dropCall
  split
  · dsimp only
    split <;> rfl
  · rfl
  · rfl
  · rfl

theorem letGo_store (w : World) (i : Nat) : (w.letGo i).store = w.store := by
  unfold letGo
  split <;> rfl

section
variable {w : World} (hw : w.Staffed)
include hw

theorem drop_passes (n : Nat) : w.Passes (fun _ => []) (w.dropCall n) := by
  have erased : Works w (fun _ => []) { w with calls := Table.erase n w.calls } :=
    (Works.still hw).as rfl rfl
  unfold dropCall
  split
  · next i r hc =>
    cases hk : w.workers[i]? with
    | none => simpa only [hk] using erased.passes
    | some k =>
      have hs := abandon_staff (i := i) (hw.workers k (List.mem_of_getElem? hk)) r
      simpa only [hk] using ((Works.idler hw hk hs).as (v := setWorker
        { w with calls := Table.erase n w.calls } i (r.abandon k)) rfl rfl).swept
  · exact erased.swept
  · exact erased.swept
  · exact (Works.still hw).passes

theorem letGo_passes (i : Nat) : w.Passes (fun _ => []) (w.letGo i) := by
  unfold letGo
  split
  · next k hk =>
    have hp := hw.workers k (List.mem_of_getElem? hk)
    have hs : StaffStep i k [] { k with held := false } :=
      ⟨⟨⟨hp.unspawned, hp.own⟩, rfl, fun sh => .rest _ _⟩, rfl, Or.inr rfl⟩
    exact (Works.idler hw hk hs).swept
  · exact (Works.still hw).passes

theorem Tends.works {w₁ : World} {i : Nat} (h : w.Tends i w₁) : w.Works (fun _ => []) w₁ := by
  rcases h with h | ⟨k, k', hk, hs, h⟩
  · exact (Works.still hw).as h.store h.workers
  · exact (Works.idler hw hk hs).as h.store h.workers

theorem Drives.works {n i : Nat} {r : Runner} {t : World × Progress Runner Outcome}
    (h : w.Drives n i r t) :
    w.Works (fun q => if w.serves q i then (w.answer? r).toList.map (.returned i) else []) t.1 := by
  cases h with
  | goes tends mans same count on nothing => simpa [nothing] using tends.works hw
  | @takes w₁ r' k k' e token mans same count worker work answer dispatched =>
    have hq (q : Queue) : (w.serves q i = true) = (k.queue = q) := by simp [serves, worker]
    simp only [answer, hq, Option.toList_some, List.map_cons, List.map_nil]
    exact (Works.worker hw worker work).as dispatched.store dispatched.workers
  | ends same nothing => simpa [nothing] using (Works.still hw).as same.store same.workers
  | panics many same nothing => simpa [nothing] using (Works.still hw).as same.store same.workers

omit hw in
theorem Drives.store {n i : Nat} {r : Runner} {t : World × Progress Runner Outcome}
    (h : w.Drives n i r t) : t.1.store = w.store := by
  cases h with
  | goes tends =>
    rcases tends with h | ⟨k, k', -, -, h⟩
    · exact h.store
    · exact h.store
  | takes mans same count worker work answer dispatched => exact dispatched.store
  | ends same => exact same.store
  | panics many same => exact same.store

/-- A step of a call that leaves the store alone and is none of a request. -/
theorem silent_deeds {n : Nat} {c : Call} (hc : Table.get? n w.calls = some c)
    (hs : (w.stepCall n c).1.store = w.store) (hr : ∀ i r, c ≠ .requesting i r) (q : Queue) :
    w.deeds q (.step (.call n)) = [] := by
  rw [deeds_unasked hc hr, hs, (hw.shelves q).additions_nothing rfl]

theorem call_passes (n : Nat) : w.Passes (fun q => w.actDeeds q (.move (.step (.call n))))
    (w.act (.move (.step (.call n)))) := by
  cases hc : w.call? n with
  | none =>
    have hc' : Table.get? n w.calls = none := hc
    have hm : w.move (.step (.call n)) = w := by simp [move, step, hc']
    have hd (q : Queue) : w.actDeeds q (.move (.step (.call n))) = [] := by
      simp [actDeeds, deeds, hm, (hw.shelves q).additions_nothing rfl, agentDeeds, hc',
        runnerDeeds, hc]
    simp only [hd, act, hm]
    exact (Works.still hw).passes
  | some c =>
    have hm : w.act (.move (.step (.call n))) = _ := step_call hc
    have plain (hp : c.Plain) (hd : ∀ q, w.runnerDeeds q n = []) :
        w.Passes (fun q => w.actDeeds q (.move (.step (.call n))))
          (w.act (.move (.step (.call n)))) := by
      simp only [actDeeds, hd, List.append_nil]
      rw [hm]
      exact (plain_step hw hc hp).works.concluded n _
    cases c with
    | driving r =>
      obtain ⟨i, hr⟩ := (hw.calls n _ hc).1
      have h := runner_step (d := n) hr hw.workers
      have hd := silent_deeds hw hc h.store (by simp)
      simp only [actDeeds, hd, runnerDeeds, answered, hc, hr.source, List.nil_append]
      rw [hm]
      exact (h.works hw).concluded n _
    | dispatched owner i task r =>
      obtain ⟨h, -⟩ := w.dispatched_step n owner i task r
      have hd := silent_deeds hw hc h.store (by simp)
      simp only [actDeeds, hd, runnerDeeds, hc, List.append_nil]
      rw [hm]
      exact ((Works.still hw).as h.store h.workers).concluded n _
    | adding | publishing | requesting | shutting =>
      exact plain trivial fun q => by simp [runnerDeeds, hc]
    | _ => exact False.elim (hw.calls n _ hc).1

/-- Seen from any queue, an act is one step of its flow with the deeds of the act, and then
some loops end. -/
theorem act_passes (a : Act) : w.Passes (fun q => w.actDeeds q a) (w.act a) := by
  have outside {m : Move} (hm : ∀ a, m ≠ .step a) (h : w.Passes (fun _ => []) (w.move m))
      (hs : (w.move m).store = w.store) :
      w.Passes (fun q => w.actDeeds q (.move m)) (w.act (.move m)) := by
    have hd (q : Queue) : w.actDeeds q (.move m) = [] := by
      have he := (hw.shelves q).additions_nothing rfl
      cases m with
      | step a => exact absurd rfl (hm a)
      | _ => simp only [actDeeds, deeds, hs, he, List.append_nil]
    simp only [hd]
    exact h
  have aside {m : Move} (hm : m.Aside) :
      w.Passes (fun q => w.actDeeds q (.move m)) (w.act (.move m)) := by
    have hd (q : Queue) : w.actDeeds q (.move m) = w.deeds q m := by
      rw [actDeeds, List.append_nil]
      rintro n rfl
      exact hm
    simp only [hd]
    exact aside_passes hm hw
  cases a with
  | move m =>
    cases m with
    | step a =>
      cases a with
      | call n => exact call_passes hw n
      | loop i => exact aside trivial
    | drop n => exact outside (by simp) (drop_passes hw n) (drop_store w n)
    | letGo i => exact outside (by simp) (letGo_passes hw i) (letGo_store w i)
    | _ => exact aside trivial
  | drive i settings t =>
    exact ((Works.still hw).as (v := w.act (.drive i settings t)) rfl rfl).passes
  | cancel t => exact ((Works.still hw).as (v := w.act (.cancel t)) rfl rfl).passes

end

end TaskRelay.World
