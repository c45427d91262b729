import TaskRelay.Proofs.World.Chronicle

/-!
# Steps of calls, seen from one worker

A step of a call on a worker is one step of the worker's life, in which a request may first
spawn the loop. Calls on other workers, and additions, are nothing to it.
-/

set_option autoImplicit false

namespace TaskRelay.World

section
variable (i : Nat)

def endEvents (id : Nat) : Progress Call Outcome → List Event
  | .done o => [.returned id o]
  | _ => []

/-- A step of a call that is not on the worker. -/
theorem foreign_lives {w w₁ : World} {id : Nat} {p : Progress Call Outcome}
    (hr : Post.Run (w.post i) [] (w₁.post i)) (hc : w₁.calls = w.calls)
    (hv : visits i w.calls id = none)
    (hp : ∀ c, p = .running c ∨ p = .waiting c → c.visit? i = none) :
    Post.Run (w.post i) [] ((w₁.conclude id p).post i) := by
  have hself : Function.update (visits i w₁.calls) id none = visits i w₁.calls := by
    rw [← hv, ← hc, Function.update_eq_self]
  have put {c : Call} (hn : c.visit? i = none) : (w₁.setCall id c).post i = w₁.post i := by
    rw [post_setCall, hn, hself]
    rfl
  cases p with
  | running c => exact (put (hp c (Or.inl rfl))).symm ▸ hr
  | waiting c => exact (put (hp c (Or.inr rfl))).symm ▸ hr
  | done o =>
    have hf : (w₁.post i).forget id = w₁.post i := by
      change { w₁.post i with calls := Function.update (visits i w₁.calls) id none } = _
      rw [hself]
      rfl
    have hrun := hr.trans (hf ▸ finish_lives i w₁ id o)
    exact hrun

/-- A step after which a call on the worker is to go on. -/
theorem goes_lives {w w₁ : World} {id : Nat} {c : Call} {v : Visit} {es : List Event}
    (hv : c.visit? i = some v) (hr : Post.Run (w.post i) es ((w₁.post i).put id v)) :
    Post.Run (w.post i) es ((w₁.setCall id c).post i) := by
  rw [post_setCall, hv]
  exact hr

/-- A step with which a call on the worker ends. -/
theorem ends_lives {w w₁ : World} {id : Nat} (o : Outcome) {es : List Event}
    (hr : Post.Run (w.post i) es ((w₁.post i).forget id)) :
    Post.Run (w.post i) es ((w₁.finish id o).post i) := by
  have hrun := hr.trans (finish_lives i w₁ id o)
  rwa [List.append_nil] at hrun

section
variable {i} {w : World}

theorem post_calls {id : Nat} {c : Call} {v : Visit} (hc : Table.get? id w.calls = some c)
    (hv : c.visit? i = some v) : (w.post i).calls id = some v := by
  simp [post, visits, hc, hv]

/-- A call on a worker that does not exist. -/
theorem lost_lives {id : Nat} {c : Call} {v : Visit} (hc : Table.get? id w.calls = some c)
    (hv : c.visit? i = some v) (hk : w.workers[i]? = none) :
    Post.Run (w.post i) [.returned id .panicked] ((w.finish id .panicked).post i) :=
  ends_lives i _ (Post.Step.lost (by simp [post, hk]) (post_calls hc hv)).run

theorem publish_lives {id : Nat} {b : Publish}
    (hc : Table.get? id w.calls = some (.publishing i b)) :
    Post.Run (w.post i) (endEvents id (w.stepCall id (.publishing i b)).2)
      (((w.stepCall id (.publishing i b)).1.conclude id
        (w.stepCall id (.publishing i b)).2).post i) := by
  have visit (b : Publish) : (Call.publishing i b).visit? i = some (.publishing b) := if_pos rfl
  have hcall := post_calls hc (visit b)
  cases hk : w.workers[i]? with
  | none =>
    simp only [stepCall, hk]
    exact lost_lives hc (visit b) hk
  | some k =>
    have hph := post_phase i w hk
    have hcl := Publish.step_closed w.store b w.now k
    have hal : ∀ b', (b.step w.now k w.store).2.2 = .running b' ∨
        (b.step w.now k w.store).2.2 = .waiting b' → (∃ t, b = .fresh t) →
          k.lifecycle.isOver = false := by
      rintro b' h ⟨t, rfl⟩
      by_contra ho
      rw [Bool.not_eq_false] at ho
      simp [Publish.step, ho] at h
    have hre : ∀ r, (b.step w.now k w.store).2.2 = .done r → (∃ t, b = .fresh t) →
        r = .error .queueShutdown := by
      rintro r h ⟨t, rfl⟩
      simp only [Publish.step] at h
      split at h
      · simpa using h.symm
      · simp at h
    simp only [stepCall, hk]
    generalize b.step w.now k w.store = r at hcl hal hre ⊢
    obtain ⟨s, ns, p⟩ := r
    have hpost : (({ w with store := s } : World).notes ns).post i = w.post i := by
      rw [post_notes]
      simp only [post]
      rw [show s.closed = w.store.closed from hcl]
    rcases p with b' | b' | r
    · refine goes_lives i (visit b') ?_
      rw [hpost]
      exact (Post.Step.publishes hph hcall (hal b' (Or.inl rfl))).run
    · refine goes_lives i (visit b') ?_
      rw [hpost]
      exact (Post.Step.publishes hph hcall (hal b' (Or.inr rfl))).run
    · refine ends_lives i _ ?_
      rw [hpost]
      exact (Post.Step.published hph hcall (hre r rfl)).run

def requestEvents (k : Worker) (id : Nat) (r : Request) (p : Progress Call Outcome) : List Event :=
  (if r = .fresh ∧ k.lifecycle = .notStarted then [.spawned] else []) ++ endEvents id p

theorem request_lives {id : Nat} {r : Request} {k : Worker}
    (hc : Table.get? id w.calls = some (.requesting i r)) (hk : w.workers[i]? = some k) :
    Post.Run (w.post i) (requestEvents k id r (w.stepCall id (.requesting i r)).2)
      (((w.stepCall id (.requesting i r)).1.conclude id
        (w.stepCall id (.requesting i r)).2).post i) := by
  have visit (r : Request) : (Call.requesting i r).visit? i = some (.requesting r) := if_pos rfl
  have hcall := post_calls hc (visit r)
  have hph := post_phase i w hk
  have hsees := Request.step_sees w.now k r
  simp only [stepCall, hk]
  generalize r.step w.now k = t at hsees ⊢
  obtain ⟨k', ns, p⟩ := t
  have hpost : ((w.setWorker i k').notes ns).post i = (w.post i).enter k'.phase := by
    rw [post_notes, post_setWorker i w hk]
  cases hsees with
  | spawns =>
    refine goes_lives i (visit _) ?_
    rw [hpost]
    change Post.Run _ _ (((w.post i).enter k.spawn.phase).put id _)
    by_cases hn : k.lifecycle = .notStarted
    · have he : requestEvents k id .fresh (.running (.requesting i (.between 0))) =
          [.spawned] := by simp [requestEvents, endEvents, hn]
      have hs : k.spawn.phase =
          { k.phase with lifecycle := .running, loop := .active .spawned } := by
        simp [Worker.spawn, hn, Worker.phase]
      rw [he, hs]
      have hreq : Post.Step ((w.post i).enter
          { k.phase with lifecycle := .running, loop := .active .spawned }) [] _ :=
        .requests rfl hcall fun _ => ⟨rfl, rfl⟩
      exact .cons (.spawned hph hn) hreq.run
    · have he : requestEvents k id .fresh (.running (.requesting i (.between 0))) = [] := by
        simp [requestEvents, endEvents, hn]
      have hs : k.spawn = k := by
        unfold Worker.spawn
        split
        · next h => exact absurd h hn
        · rfl
      rw [he, hs, post_enter i w hk]
      exact (Post.Step.requests hph hcall fun _ => ⟨rfl, rfl⟩).run
  | @goes _ r' _ _ same started opened on =>
    have hrun : Post.Run (w.post i) [] (((w.setWorker i k').notes ns).post i |>.put id
        (.requesting r')) := by
      rw [hpost, same, post_enter i w hk]
      refine (Post.Step.requests hph hcall fun hcl => ?_).run
      rw [show k.phase.closed = false from opened] at hcl
      cases hcl
    have he (p : Progress Call Outcome) (hp : endEvents id p = []) :
        requestEvents k id r p = [] := by simp [requestEvents, started, hp]
    rcases on with rfl | rfl
    · rw [he _ rfl]
      exact goes_lives i (visit r') hrun
    · rw [he _ rfl]
      exact goes_lives i (visit r') hrun
  | @ends _ _ x same started reason refused nothing =>
    have hrun : Post.Run (w.post i) (requestEvents k id r (.done (.requested x)))
        (((w.setWorker i k').notes ns).post i |>.forget id) := by
      have he : requestEvents k id r (.done (.requested x)) = [.returned id (.requested x)] := by
        simp [requestEvents, started, endEvents]
      rw [he, hpost, same, post_enter i w hk]
      exact (Post.Step.requested hph hcall reason fun hcl hr =>
        refused hcl (hr.resolve_left started)).run
    cases x with
    | error e => exact ends_lives i _ hrun
    | ok e =>
      rw [← post_notes i ((w.setWorker i k').notes ns) (k'.taskOf e).1] at hrun
      exact ends_lives i _ hrun

theorem shutdown_lives {id : Nat} {s : Shutdown} {k : Worker}
    (hc : Table.get? id w.calls = some (.shutting i s)) (hk : w.workers[i]? = some k) :
    Post.Run (w.post i) (w.attempts i (.step (.call id)) ++
        endEvents id (w.stepCall id (.shutting i s)).2)
      (((w.stepCall id (.shutting i s)).1.conclude id
        (w.stepCall id (.shutting i s)).2).post i) := by
  have visit (s : Shutdown) : (Call.shutting i s).visit? i = some (.shutting s) := if_pos rfl
  have hcall := post_calls hc (visit s)
  have hph := post_phase i w hk
  have hat : w.attempts i (.step (.call id)) = if s = .fresh then [.tried id] else [] := by
    have hv : visits i w.calls id = some (.shutting s) := hcall
    cases s <;> simp [attempts, hv, hk]
  have hpost (tokens : Cancellations) (store : Store) (k' : Worker) (ns : List Note) :
      ((({ w with tokens := tokens, store := store } : World).setWorker i k').notes ns).post i =
        { (w.post i).enter k'.phase with shut := store.closed } := by
    have hk' : ({ w with tokens := tokens, store := store } : World).workers[i]? = some k := hk
    rw [post_notes, post_setWorker i _ hk']
    rfl
  have same : { (w.post i).enter k.phase with shut := w.store.closed } = w.post i :=
    post_enter i w hk
  rw [hat]
  simp only [stepCall, hk]
  cases s with
  | fresh =>
    by_cases ho : k.lifecycle.isOver = true
    · simp only [Shutdown.step, ho, if_true, Progress.within]
      refine ends_lives i _ ?_
      rw [hpost, same]
      exact (Post.Step.refused hph hcall ho).run
    · have hn : k.lifecycle.isOver = false := Bool.eq_false_iff.mpr ho
      simp only [Shutdown.step, ho, Bool.false_eq_true, if_false, if_true, Progress.within]
      refine goes_lives i (visit _) ?_
      rw [hpost]
      exact (Post.Step.tried hph hcall hn).run
  | joining d =>
    have joined {c : LoopState} (hcs : k.consumer = c) (hi : c.isActive = false) (ns : List Note) :
        Post.Run (w.post i) [] (((w.setWorker i k).notes ns).setCall id
          (.shutting i .closing) |>.post i) := by
      refine goes_lives i (visit _) ?_
      rw [post_notes, post_setWorker i w hk, post_enter i w hk]
      refine (Post.Step.joined hph hcall ?_).run
      exact (congrArg LoopState.isActive hcs).trans hi
    cases hcs : k.consumer with
    | absent | finished | panicked | aborted =>
      simp only [Shutdown.step, hcs]
      exact joined hcs rfl _
    | active c =>
      by_cases hd : d ≤ w.now
      · simp only [Shutdown.step, hcs, hd, if_true]
        refine goes_lives i (visit _) ?_
        rw [hpost]
        have hab := Post.Step.ended (l := .aborted) hph (by simp [Worker.phase, hcs]; rfl) (Or.inr rfl)
        have hj : Post.Step ((w.post i).enter { k.phase with loop := .aborted }) [] _ :=
          .joined rfl hcall rfl
        exact .cons hab hj.run
      · simp only [Shutdown.step, hcs, hd, if_false]
        refine goes_lives i (visit _) ?_
        rw [hpost, same]
        have hself : (w.post i).put id (.shutting (.joining d)) = w.post i := by
          unfold Post.put
          rw [← hcall, Function.update_eq_self]
        rw [hself]
        exact .nil _
  | closing =>
    simp only [Shutdown.step]
    refine ends_lives i _ ?_
    rw [hpost]
    exact (Post.Step.stopped hph hcall).run

theorem post_store {s : Store} (hs : s.closed = w.store.closed) :
    post { w with store := s } i = w.post i := by
  simp [post, hs]

theorem shutdown_store (now : Nat) (tokens : Cancellations) (store : Store) (k : Worker)
    (s : Shutdown) : (s.step now tokens store k).store = store ∨
      (s.step now tokens store k).store = store.close := by
  cases s with
  | fresh =>
    simp only [Shutdown.step]
    split <;> exact Or.inl rfl
  | joining d =>
    simp only [Shutdown.step]
    split
    · exact Or.inl rfl
    · exact Or.inl rfl
    · exact Or.inl rfl
    · exact Or.inl rfl
    · split <;> exact Or.inl rfl
  | closing => exact Or.inr rfl

section
variable {id : Nat}

theorem foreign_add {a : Addition} (hc : Table.get? id w.calls = some (.adding a)) :
    Post.Run (w.post i) [] (((w.stepCall id (.adding a)).1.conclude id
      (w.stepCall id (.adding a)).2).post i) := by
  have hpost : (w.stepCall id (.adding a)).1.post i = w.post i :=
    post_store (a.resume_closed w.store w.now)
  exact foreign_lives i (hpost ▸ .nil _) rfl (by simp [visits, hc, Call.visit?])
    (within_kept (P := fun c => c.visit? i = none) fun _ => rfl)

variable {j : Nat} (hj : j ≠ i)
include hj

theorem foreign_publish {b : Publish} (hc : Table.get? id w.calls = some (.publishing j b)) :
    Post.Run (w.post i) [] (((w.stepCall id (.publishing j b)).1.conclude id
      (w.stepCall id (.publishing j b)).2).post i) := by
  have hv : visits i w.calls id = none := by simp [visits, hc, Call.visit?, hj]
  cases hk : w.workers[j]? with
  | none =>
    simp only [stepCall, hk]
    exact foreign_lives i (.nil _) rfl hv (by simp)
  | some k =>
    simp only [stepCall, hk]
    refine foreign_lives i ?_ (notes_calls _ _) hv (within_kept fun _ => by
      simp [Call.visit?, hj])
    rw [post_notes, post_store (b.step_closed w.store w.now k)]
    exact .nil _

theorem foreign_request {r : Request} (hc : Table.get? id w.calls = some (.requesting j r)) :
    Post.Run (w.post i) [] (((w.stepCall id (.requesting j r)).1.conclude id
      (w.stepCall id (.requesting j r)).2).post i) := by
  have hv : visits i w.calls id = none := by simp [visits, hc, Call.visit?, hj]
  cases hk : w.workers[j]? with
  | none =>
    simp only [stepCall, hk]
    exact foreign_lives i (.nil _) rfl hv (by simp)
  | some k =>
    have hpost (k' : Worker) (ns : List Note) :
        Post.Run (w.post i) [] (((w.setWorker j k').notes ns).post i) := by
      rw [post_notes, post_setWorker_ne i w hj]
      exact .nil _
    have hcalls (k' : Worker) (ns : List Note) : ((w.setWorker j k').notes ns).calls = w.calls :=
      notes_calls _ _
    simp only [stepCall, hk]
    generalize r.step w.now k = t
    obtain ⟨k', ns, r' | r' | e | e⟩ := t
    · exact foreign_lives i (hpost k' ns) (hcalls k' ns) hv (by simp [Call.visit?, hj])
    · exact foreign_lives i (hpost k' ns) (hcalls k' ns) hv (by simp [Call.visit?, hj])
    · exact foreign_lives i (hpost k' ns) (hcalls k' ns) hv (by simp)
    · refine foreign_lives i ?_ ((notes_calls _ _).trans (hcalls k' ns)) hv (by simp)
      rw [post_notes]
      exact hpost k' ns

theorem foreign_shutdown {s : Shutdown} (hc : Table.get? id w.calls = some (.shutting j s)) :
    Post.Run (w.post i) [] (((w.stepCall id (.shutting j s)).1.conclude id
      (w.stepCall id (.shutting j s)).2).post i) := by
  have hv : visits i w.calls id = none := by simp [visits, hc, Call.visit?, hj]
  cases hk : w.workers[j]? with
  | none =>
    simp only [stepCall, hk]
    exact foreign_lives i (.nil _) rfl hv (by simp)
  | some k =>
    have hst := shutdown_store w.now w.tokens w.store k s
    simp only [stepCall, hk]
    refine foreign_lives i ?_ (notes_calls _ _) hv (within_kept fun _ => by
      simp [Call.visit?, hj])
    rw [post_notes, post_setWorker_ne i _ hj]
    rcases hst with hst | hst
    · rw [hst]
      exact .nil _
    · rw [hst]
      exact Post.Step.shut.run

end

end

end

end TaskRelay.World
