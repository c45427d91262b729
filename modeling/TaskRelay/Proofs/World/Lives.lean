import TaskRelay.Proofs.World.Visits

/-!
# Every run is a life

Seen from one worker every move of the world is some steps of its life, with the events
told of the move. So whatever the steps of a life keep holds of the worker after every run.
-/

set_option autoImplicit false

namespace TaskRelay.World

section
variable {i : Nat} {w : World}

theorem spawnings_none {w' : World} {es : List Event} (hr : Post.Run (w.post i) es (w'.post i))
    (hs : .spawned ∉ es) : w.spawnings i w' = [] := by
  unfold spawnings
  split
  · next h =>
    rw [Bool.and_eq_true] at h
    rw [hr.unspawned hs h.1] at h
    exact absurd h.2 (by simp)
  · rfl

theorem spawnings_some (hw : w.Proper) {w' : World} {k : Worker} (hk : w.workers[i]? = some k)
    (hn : k.lifecycle = .notStarted) (hs : (w'.post i).justSpawned = true) :
    w.spawnings i w' = [.spawned] := by
  have ha : k.consumer = .absent := (hw.workers k (List.mem_of_getElem? hk)).unspawned hn
  have hj : (w.post i).justSpawned = false := by
    simp [Post.justSpawned, post_phase i w hk, Worker.phase, ha]
  simp [spawnings, hs, hj]

theorem returns_endEvents {w₁ : World} {id : Nat} {p : Progress Call Outcome} {v : Visit}
    (hv : visits i w.calls id = some v) (he : w₁.ended = w.ended) :
    w.returns i (w₁.conclude id p) (.step (.call id)) = endEvents id p := by
  have hd : (w₁.conclude id p).ended.drop w.ended.length = endings id w₁.now p := by
    rw [conclude_ended, he, List.drop_left]
  simp only [returns, hv, Option.isSome_some, if_true, hd]
  cases p <;> rfl

theorem attempts_unspawned (m : Move) : .spawned ∉ w.attempts i m := by
  unfold attempts
  split
  · split <;> simp
  · split <;> simp
  · split <;> simp
  · split <;> simp
  · split
    · split <;> simp
    · simp
  · simp

theorem returns_unspawned (w' : World) (m : Move) : .spawned ∉ w.returns i w' m := by
  unfold returns
  split
  · split
    · rw [List.mem_map]
      rintro ⟨e, -, h⟩
      cases h
    · simp
  · simp

/-- Moves that spawn no loop. -/
theorem quiet_lives {m : Move} (hr : Post.Run (w.post i) (w.attempts i m ++
      w.returns i (w.move m) m) ((w.move m).post i)) :
    Post.Run (w.post i) (w.events i m) ((w.move m).post i) := by
  have hs : .spawned ∉ w.attempts i m ++ w.returns i (w.move m) m := by
    rw [List.mem_append, not_or]
    exact ⟨attempts_unspawned m, returns_unspawned _ m⟩
  rwa [events, spawnings_none hr hs, List.append_nil]

theorem own_publish_lives (hw : w.Proper) {id : Nat} {b : Publish}
    (hc : Table.get? id w.calls = some (.publishing i b)) :
    Post.Run (w.post i) (w.events i (.step (.call id))) ((w.move (.step (.call id))).post i) := by
  have hm : w.move (.step (.call id)) = _ := step_call hc
  have hv : visits i w.calls id = some (.publishing b) := post_calls hc (if_pos rfl)
  have ha : w.attempts i (.step (.call id)) = [] := by simp [attempts, hv]
  have he := returns_endEvents (p := (w.stepCall id (.publishing i b)).2) hv
    (publish_call hw id i b).ended
  refine quiet_lives ?_
  rw [ha, hm, he]
  exact publish_lives hc

theorem own_request_lives (hw : w.Proper) {id : Nat} {r : Request}
    (hc : Table.get? id w.calls = some (.requesting i r)) :
    Post.Run (w.post i) (w.events i (.step (.call id))) ((w.move (.step (.call id))).post i) := by
  have hm : w.move (.step (.call id)) = _ := step_call hc
  have hv : visits i w.calls id = some (.requesting r) := post_calls hc (if_pos rfl)
  have ha : w.attempts i (.step (.call id)) = [] := by simp [attempts, hv]
  cases hk : w.workers[i]? with
  | none =>
    have hs : w.stepCall id (.requesting i r) = (w, .done .panicked) := by simp [stepCall, hk]
    rw [hs] at hm
    refine quiet_lives ?_
    rw [ha, hm, returns_endEvents hv rfl]
    exact lost_lives hc (if_pos rfl) hk
  | some k =>
    obtain ⟨-, ds, hcall, -⟩ := request_call hw hk id r
    have he := returns_endEvents (p := (w.stepCall id (.requesting i r)).2) hv hcall.ended
    have hr := request_lives hc hk
    unfold requestEvents at hr
    split at hr
    · next hn =>
      obtain ⟨rfl, hn⟩ := hn
      have hs : ((w.move (.step (.call id))).post i).justSpawned = true := by
        have hsp : k.spawn.consumer = .active .spawned := by simp [Worker.spawn, hn]
        have hstep : w.stepCall id (.requesting i .fresh) =
            ((w.setWorker i k.spawn).notes [], .running (.requesting i (.between 0))) := by
          simp [stepCall, hk, Request.step]
        rw [hm, hstep]
        simp [conclude, post_setCall, post_notes, post_setWorker i w hk, Post.justSpawned,
          Post.enter, Worker.phase, hsp]
      rw [events, ha, spawnings_some hw hk hn hs, hm, he, List.nil_append]
      exact hr
    · refine quiet_lives ?_
      rw [ha, hm, he]
      exact hr

theorem own_shutdown_lives (hw : w.Proper) {id : Nat} {s : Shutdown}
    (hc : Table.get? id w.calls = some (.shutting i s)) :
    Post.Run (w.post i) (w.events i (.step (.call id))) ((w.move (.step (.call id))).post i) := by
  have hm : w.move (.step (.call id)) = _ := step_call hc
  have hv : visits i w.calls id = some (.shutting s) := post_calls hc (if_pos rfl)
  have he := returns_endEvents (p := (w.stepCall id (.shutting i s)).2) hv
    (shutdown_call hw id i s).1.ended
  refine quiet_lives ?_
  cases hk : w.workers[i]? with
  | none =>
    have hs : w.stepCall id (.shutting i s) = (w, .done .panicked) := by simp [stepCall, hk]
    have ha : w.attempts i (.step (.call id)) = [] := by
      cases s <;> simp [attempts, hv, hk]
    rw [ha, hm, he, hs]
    exact lost_lives hc (if_pos rfl) hk
  | some k =>
    rw [hm, he]
    exact shutdown_lives hc hk

theorem call_lives (hw : w.Proper) (id : Nat) :
    Post.Run (w.post i) (w.events i (.step (.call id))) ((w.move (.step (.call id))).post i) := by
  cases hc : Table.get? id w.calls with
  | none =>
    have hm : w.move (.step (.call id)) = w := by simp [move, step, hc]
    have ha : w.attempts i (.step (.call id)) = [] := by simp [attempts, visits, hc]
    have hr : w.returns i w (.step (.call id)) = [] := by simp [returns, visits, hc]
    refine quiet_lives ?_
    rw [ha, hm, hr]
    exact .nil _
  | some c =>
    have hm : w.move (.step (.call id)) = _ := step_call hc
    have foreign (hv : c.visit? i = none)
        (hr : Post.Run (w.post i) [] ((w.move (.step (.call id))).post i)) :
        Post.Run (w.post i) (w.events i (.step (.call id)))
          ((w.move (.step (.call id))).post i) := by
      have ha : w.attempts i (.step (.call id)) = [] := by simp [attempts, visits, hc, hv]
      have he : w.returns i (w.move (.step (.call id))) (.step (.call id)) = [] := by
        simp [returns, visits, hc, hv]
      exact quiet_lives (by rwa [ha, he])
    cases c with
    | adding a => exact foreign rfl (hm ▸ foreign_add hc)
    | publishing j b =>
      by_cases hj : j = i
      · subst hj
        exact own_publish_lives hw hc
      · exact foreign (if_neg hj) (hm ▸ foreign_publish hj hc)
    | requesting j r =>
      by_cases hj : j = i
      · subst hj
        exact own_request_lives hw hc
      · exact foreign (if_neg hj) (hm ▸ foreign_request hj hc)
    | shutting j s =>
      by_cases hj : j = i
      · subst hj
        exact own_shutdown_lives hw hc
      · exact foreign (if_neg hj) (hm ▸ foreign_shutdown hj hc)
    | _ => exact False.elim (hw.calls id _ hc)

theorem loop_lives (j : Nat) :
    Post.Run (w.post i) (w.events i (.step (.loop j))) ((w.move (.step (.loop j))).post i) := by
  refine quiet_lives ?_
  have hret : w.returns i (w.move (.step (.loop j))) (.step (.loop j)) = [] := rfl
  rw [hret, List.append_nil]
  cases hk : w.workers[j]? with
  | none =>
    have hm : w.move (.step (.loop j)) = w := by simp [move, step, stepLoop, hk]
    have ha : w.attempts i (.step (.loop j)) = [] := by
      simp only [attempts, Bool.and_eq_true, decide_eq_true_eq]
      rw [if_neg]
      rintro ⟨rfl, h⟩
      simp [hk] at h
    rw [ha, hm]
    exact .nil _
  | some k =>
    cases hc : k.consumer with
    | active c =>
      obtain ⟨s, hs⟩ :
          ∃ s, c.step k.settings w.view w.now (w.isCancelled k.stop) w.store k.handoff = s :=
        ⟨_, rfl⟩
      have hm : w.move (.step (.loop j)) = _ := stepLoop_active hk hc hs
      obtain ⟨hstore, hhand, hgoes⟩ : s.Open w.store k.handoff := hs ▸ c.step_open ..
      have hpost : (({ w with store := s.store } : World).notes s.notes).post i = w.post i := by
        rw [post_notes, post_store hstore]
      rw [hm]
      by_cases hj : j = i
      · subst hj
        have ha : w.attempts j (.step (.loop j)) = [.looped] := by
          simp [attempts, hk, hc, LoopState.isActive]
        have hk' : (({ w with store := s.store } : World).notes s.notes).workers[j]? = some k := by
          rw [notes_workers]
          exact hk
        have hph : Worker.phase { k with handoff := s.handoff, consumer := s.state } =
            { k.phase with loop := s.state } := by simp [Worker.phase, hhand]
        rw [ha, post_setWorker j _ hk', hpost, hph]
        exact (Post.Step.looped (post_phase j w hk) (by simp [Worker.phase, hc]; rfl) hgoes).run
      · have ha : w.attempts i (.step (.loop j)) = [] := by simp [attempts, hj]
        rw [ha, post_setWorker_ne i _ hj, hpost]
        exact .nil _
    | _ =>
      have hm : w.move (.step (.loop j)) = w := by simp [move, step, stepLoop, hk, hc]
      have ha : w.attempts i (.step (.loop j)) = [] := by
        simp only [attempts, Bool.and_eq_true, decide_eq_true_eq]
        rw [if_neg]
        rintro ⟨rfl, h⟩
        simp [hk, hc, LoopState.isActive] at h
      rw [ha, hm]
      exact .nil _

/-- A call began. -/
theorem begin_lives (hn : visits i w.calls w.nextCall = none) (c : Call) :
    (c.visit? i = none → Post.Run (w.post i) [] ((w.begin c).1.post i)) ∧
      ∀ v, c.visit? i = some v → v.isFresh = true →
        Post.Run (w.post i) [.began w.nextCall] ((w.begin c).1.post i) := by
  have hpost : (w.begin c).1.post i = { w.post i with
      nextCall := w.nextCall + 1
      calls := Function.update (visits i w.calls) w.nextCall (c.visit? i) } := by
    simp [post, begin, visits_insert]
  rw [hpost]
  refine ⟨fun hv => ?_, fun v hv hf => ?_⟩
  · rw [hv, ← hn, Function.update_eq_self]
    exact Post.Step.count.run
  · rw [hv]
    exact (Post.Step.began hf).run

theorem create_lives (settings : StreamSettings) (handler : Handler) :
    Post.Run (w.post i) [] ((w.move (.create settings handler)).post i) := by
  cases hg : w.store.createGroup settings.stream settings.group with
  | error e =>
    have hm : w.move (.create settings handler) = w := by simp [move, createWorker, hg]
    rw [hm]
    exact .nil _
  | ok store =>
    have hcl := Store.createGroup_closed w.store hg
    have hpost : (w.move (.create settings handler)).post i =
        { w.post i with phase := ((w.workers ++
          [Worker.create settings handler w.tokens.fresh.2])[i]?).map Worker.phase } := by
      simp [move, createWorker, hg, note, Worker.createdNote, Note.info, post, hcl]
    rw [hpost]
    rcases Nat.lt_trichotomy i w.workers.length with hi | hi | hi
    · rw [List.getElem?_append_left hi]
      exact .nil _
    · subst hi
      rw [List.getElem?_concat_length]
      exact (Post.Step.created settings (by simp [post])).run
    · have hnone : (w.workers ++ [Worker.create settings handler w.tokens.fresh.2])[i]? =
          w.workers[i]? := by
        rw [List.getElem?_eq_none (by simpa using Nat.succ_le_of_lt hi),
          List.getElem?_eq_none (Nat.le_of_lt hi)]
      rw [hnone]
      exact .nil _

theorem spawn_lives (hw : w.Proper) (j : Nat) :
    Post.Run (w.post i) (w.events i (.spawn j)) ((w.move (.spawn j)).post i) := by
  have still (hr : (w.move (.spawn j)).post i = w.post i) :
      Post.Run (w.post i) (w.events i (.spawn j)) ((w.move (.spawn j)).post i) := by
    refine quiet_lives ?_
    rw [hr]
    exact .nil _
  cases hk : w.workers[j]? with
  | none => exact still (by simp [move, hk])
  | some k =>
    have hm : w.move (.spawn j) = w.setWorker j k.spawn := by simp [move, hk]
    by_cases hj : j = i
    · subst hj
      by_cases hn : k.lifecycle = .notStarted
      · have hph : k.spawn.phase =
            { k.phase with lifecycle := .running, loop := .active .spawned } := by
          simp [Worker.spawn, hn, Worker.phase]
        have hp : (w.move (.spawn j)).post j = (w.post j).enter
            { k.phase with lifecycle := .running, loop := .active .spawned } := by
          rw [hm, post_setWorker j w hk, hph]
        have hs : ((w.move (.spawn j)).post j).justSpawned = true := by
          simp [hp, Post.justSpawned, Post.enter]
        rw [events, spawnings_some hw hk hn hs, hp]
        exact (Post.Step.spawned (post_phase j w hk) hn).run
      · refine still ?_
        have hs : k.spawn = k := by
          unfold Worker.spawn
          split
          · next h => exact absurd h hn
          · rfl
        rw [hm, hs, post_setWorker j w hk, post_enter j w hk]
    · exact still (by rw [hm, post_setWorker_ne i w hj])

theorem abandon_phase (r : Request) (k : Worker) : (r.abandon k).phase = k.phase := by
  cases r with
  | taking n t => rfl
  | _ => rfl

theorem drop_lives (id : Nat) : Post.Run (w.post i) [] ((w.dropCall id).post i) := by
  have erased {c : Call} (hc : Table.get? id w.calls = some c)
      (hs : ∀ j s, c ≠ .shutting j s) :
      Post.Run (w.post i) [] (post { w with calls := Table.erase id w.calls } i) := by
    have he : post { w with calls := Table.erase id w.calls } i = (w.post i).forget id :=
      post_erase i w id w.ended
    rw [he]
    cases hv : c.visit? i with
    | none =>
      have hnone : visits i w.calls id = none := by simp [visits, hc, hv]
      have hf : (w.post i).forget id = w.post i := by
        change { w.post i with calls := Function.update (visits i w.calls) id none } = _
        rw [← hnone, Function.update_eq_self]
        rfl
      rw [hf]
      exact .nil _
    | some v =>
      refine (Post.Step.dropped (post_calls hc hv) ?_).run
      rintro s rfl
      unfold Call.visit? at hv
      split at hv
      · split at hv <;> simp at hv
      · split at hv <;> simp at hv
      · exact hs _ _ rfl
      · cases hv
  unfold dropCall
  split
  · next j r hc =>
    have hr := erased hc (by simp)
    cases hk : w.workers[j]? with
    | none => simpa only [hk] using hr
    | some k =>
      simp only [hk]
      have hp : (setWorker { w with calls := Table.erase id w.calls } j (r.abandon k)).post i =
          post { w with calls := Table.erase id w.calls } i := by
        by_cases hj : j = i
        · subst hj
          have hk' : ({ w with calls := Table.erase id w.calls } : World).workers[j]? = some k := hk
          rw [post_setWorker j _ hk', abandon_phase, post_enter j _ hk']
        · exact post_setWorker_ne i _ hj _
      rw [← hp] at hr
      exact hr.trans (sweep_lives i _)
  · next hc => exact (erased hc (by simp)).trans (sweep_lives i _)
  · next hc => exact (erased hc (by simp)).trans (sweep_lives i _)
  · exact .nil _

theorem letGo_lives (j : Nat) : Post.Run (w.post i) [] ((w.letGo j).post i) := by
  unfold letGo
  split
  · next k hk =>
    have hp : (w.setWorker j { k with held := false }).post i = w.post i := by
      by_cases hj : j = i
      · subst hj
        rw [post_setWorker j w hk]
        change (w.post j).enter k.phase = _
        exact post_enter j w hk
      · exact post_setWorker_ne i w hj _
    have hs := sweep_lives i (w.setWorker j { k with held := false })
    rwa [hp] at hs
  · exact .nil _

theorem panic_lives (j : Nat) : Post.Run (w.post i) [] ((w.move (.panic j)).post i) := by
  cases hk : w.workers[j]? with
  | none =>
    have hm : w.move (.panic j) = w := by simp [move, hk]
    rw [hm]
    exact .nil _
  | some k =>
    by_cases ha : k.consumer.isActive = true
    · have hm : w.move (.panic j) = w.setWorker j { k with consumer := .panicked } := by
        simp [move, hk, ha]
      rw [hm]
      by_cases hj : j = i
      · subst hj
        rw [post_setWorker j w hk]
        exact (Post.Step.ended (post_phase j w hk) ha (Or.inl rfl)).run
      · rw [post_setWorker_ne i w hj]
        exact .nil _
    · have hm : w.move (.panic j) = w := by simp [move, hk, ha]
      rw [hm]
      exact .nil _

/-- Seen from one worker, a move of the world is some steps of its life. -/
theorem move_lives (hw : w.Proper) (hn : visits i w.calls w.nextCall = none) (m : Move) :
    Post.Run (w.post i) (w.events i m) ((w.move m).post i) := by
  have quiet {m : Move} (ha : w.attempts i m = []) (hret : w.returns i (w.move m) m = [])
      (hr : Post.Run (w.post i) [] ((w.move m).post i)) :
      Post.Run (w.post i) (w.events i m) ((w.move m).post i) :=
    quiet_lives (by rwa [ha, hret])
  have begun {m : Move} {j : Nat} {c : Call} {v : Visit} (hm : w.move m = (w.begin c).1)
      (hc : c.visit? i = if j = i then some v else none) (hf : v.isFresh = true)
      (ha : w.attempts i m = if j = i then [.began w.nextCall] else [])
      (hret : w.returns i (w.move m) m = []) :
      Post.Run (w.post i) (w.events i m) ((w.move m).post i) := by
    refine quiet_lives ?_
    rw [ha, hret, List.append_nil, hm]
    by_cases hj : j = i
    · rw [if_pos hj] at hc ⊢
      exact (begin_lives hn c).2 v hc hf
    · rw [if_neg hj] at hc ⊢
      exact (begin_lives hn c).1 hc
  cases m with
  | step a =>
    cases a with
    | call id => exact call_lives hw id
    | loop j => exact loop_lives j
  | wait millis => exact quiet rfl rfl (Post.Step.wait millis).run
  | create settings handler => exact quiet rfl rfl (create_lives settings handler)
  | spawn j => exact spawn_lives hw j
  | publish j task => exact begun (c := .publishing j (.fresh task)) rfl rfl rfl rfl rfl
  | request j => exact begun (c := .requesting j .fresh) rfl rfl rfl rfl rfl
  | shutdown j => exact begun (c := .shutting j .fresh) rfl rfl rfl rfl rfl
  | drop id => exact quiet rfl rfl (drop_lives id)
  | letGo j => exact quiet rfl rfl (letGo_lives j)
  | panic j => exact quiet rfl rfl (panic_lives j)
  | add stream fields maxLen => exact quiet rfl rfl ((begin_lives hn _).1 rfl)
  | createGroup q =>
    refine quiet rfl rfl ?_
    cases hg : w.store.createGroup q.stream q.group with
    | error e =>
      have hm : w.move (.createGroup q) = w := by simp [move, hg]
      rw [hm]
      exact .nil _
    | ok store =>
      have hm : w.move (.createGroup q) = { w with store := store } := by simp [move, hg]
      rw [hm, post_store (Store.createGroup_closed w.store hg)]
      exact .nil _
  | closeStore => exact quiet rfl rfl Post.Step.shut.run
  | delayAdds | failReads | failAcks | look => exact quiet rfl rfl (.nil _)

/-- A worker lives through every run of the world. -/
theorem run_lives (ms : List Move) (hw : w.Proper) {h : List Event} (hl : (w.post i).Lived h) :
    Post.Run (w.post i) (chronicle i ms w) ((run ms w).post i) := by
  induction ms generalizing w h with
  | nil => exact .nil _
  | cons m ms ih =>
    have hn : visits i w.calls w.nextCall = none := by
      cases hv : visits i w.calls w.nextCall with
      | none => rfl
      | some v => exact absurd (hl.known _ (Or.inl (hl.calls _ v hv).1)) (Nat.lt_irrefl _)
    have hm := move_lives hw hn m
    exact hm.trans (ih ((move_follows hw m).proper hw) (hl.run hm))

end

theorem onStore_lived (view : StoreView) (ops : List Store.Op) (i : Nat) :
    ((onStore view ops).post i).Lived [] where
  fits := .nil
  unborn := by simp
  reached := by simp [post, onStore, start]
  calls := by simp [post, onStore, start, visits, Table.get?]
  known := by simp
  winner := nofun

end TaskRelay.World
