import TaskRelay.Proofs.World.Goes

/-!
# Steps of the agents

The deeds that are told from the worlds before and after a step of a call or of a
consumer loop are those of the work it did.
-/

set_option autoImplicit false

namespace TaskRelay.World

structure CallStep (w : World) (ds : Queue → List Deed) (r : World × Progress Call Outcome) :
    Prop where
  goes : w.Goes ds r.1
  calls : r.1.calls = w.calls
  ended : r.1.ended = w.ended
  plain : ∀ c, r.2 = .running c ∨ r.2 = .waiting c → c.Plain

def conclude (w : World) (id : Nat) : Progress Call Outcome → World
  | .running c | .waiting c => w.setCall id c
  | .done o => w.finish id o

theorem step_call {w : World} {id : Nat} {c : Call} (hc : Table.get? id w.calls = some c) :
    (w.step (.call id)).1 = (w.stepCall id c).1.conclude id (w.stepCall id c).2 := by
  simp only [step, hc]
  obtain ⟨w₁, c | c | o⟩ := w.stepCall id c <;> rfl

theorem conclude_store (w : World) (id : Nat) (p : Progress Call Outcome) :
    (w.conclude id p).store = w.store := by
  cases p <;> rfl

def endings (id now : Nat) : Progress Call Outcome → List Ended
  | .done o => [⟨id, now, o⟩]
  | _ => []

theorem conclude_ended (w : World) (id : Nat) (p : Progress Call Outcome) :
    (w.conclude id p).ended = w.ended ++ endings id w.now p := by
  cases p with
  | running c => exact (List.append_nil _).symm
  | waiting c => exact (List.append_nil _).symm
  | done o => rfl

theorem CallStep.follows {w : World} {ds : Queue → List Deed} {r : World × Progress Call Outcome}
    (hw : w.Proper) (h : w.CallStep ds r) (id : Nat) : w.Follows ds (r.1.conclude id r.2) := by
  obtain ⟨w₁, p⟩ := r
  have hcalls : w₁.calls = w.calls := h.calls
  have put {c : Call} (hc : c.Plain) : w.Follows ds (w₁.setCall id c) := by
    have hg : w.Goes ds (w₁.setCall id c) := by
      refine h.goes.recall rfl rfl ?_
      change ∀ id' c', Table.get? id' (Table.insert id c w₁.calls) = some c' → _
      rw [hcalls]
      exact insert_plain hw hc id
    exact hg.follows
  cases p with
  | running c => exact put (h.plain c (Or.inl rfl))
  | waiting c => exact put (h.plain c (Or.inr rfl))
  | done o =>
    have hg : w.Goes ds { w₁ with
        calls := Table.erase id w₁.calls, ended := w₁.ended ++ [⟨id, w₁.now, o⟩] } := by
      refine h.goes.recall rfl rfl ?_
      change ∀ id' c', Table.get? id' (Table.erase id w₁.calls) = some c' → _
      rw [hcalls]
      exact erase_plain hw id
    exact hg.swept

/-- A call goes on as one of its kind. -/
theorem within_kept {σ α : Type} {P : Call → Prop} {f : σ → Call} (hf : ∀ s, P (f s))
    {g : α → Outcome} {p : Progress σ α} :
    ∀ c, p.within f g = .running c ∨ p.within f g = .waiting c → P c := by
  intro c hc
  cases p with
  | running s =>
    obtain rfl : f s = c := by simpa [Progress.within] using hc
    exact hf s
  | waiting s =>
    obtain rfl : f s = c := by simpa [Progress.within] using hc
    exact hf s
  | done a => simp [Progress.within] at hc

/-- A call other than a request does nothing to a queue but add to it. -/
theorem deeds_unasked {w : World} {id : Nat} {c : Call} (hc : Table.get? id w.calls = some c)
    (hr : ∀ i r, c ≠ .requesting i r) (q : Queue) : w.deeds q (.step (.call id)) =
      additions (w.store.shelf q) ((w.stepCall id c).1.store.shelf q) := by
  have hm : w.move (.step (.call id)) = _ := step_call hc
  rw [deeds, hm, conclude_store]
  cases c with
  | requesting i r => exact absurd rfl (hr i r)
  | _ => simp only [agentDeeds, hc, List.append_nil]

/-- A request does nothing to a queue but return an entry. -/
theorem deeds_requesting {w : World} {id i : Nat} {r : Request}
    (hc : Table.get? id w.calls = some (.requesting i r))
    (hs : (w.stepCall id (.requesting i r)).1.store = w.store)
    (he : (w.stepCall id (.requesting i r)).1.ended = w.ended) {q : Queue}
    (hq : (w.store.shelf q).Sound) : w.deeds q (.step (.call id)) =
      if w.serves q i then callDeeds i (endings id (w.stepCall id (.requesting i r)).1.now
        (w.stepCall id (.requesting i r)).2) else [] := by
  have hm : w.move (.step (.call id)) = _ := step_call hc
  rw [deeds, hm, conclude_store, hs, hq.additions_nothing rfl, List.nil_append]
  simp only [agentDeeds, hc, conclude_ended, he, List.drop_left]

/-- An addition appends to one stream or does nothing. -/
theorem addition_strays (a : Addition) (now : Nat) (s : Store) (q : Queue) :
    (s.shelf q).Strays ((a.resume now s).1.shelf q) := by
  have h := add_resume_step a now s
  generalize a.resume now s = r at h ⊢
  cases h with
  | waiting => exact Or.inl rfl
  | failed => exact Or.inl rfl
  | added appended =>
    rw [appended]
    split
    · exact Or.inr ⟨_, _, rfl⟩
    · exact Or.inl rfl

theorem publish_strays (p : Publish) (now : Nat) (k : Worker) (s : Store) (q : Queue) :
    (s.shelf q).Strays ((p.step now k s).1.shelf q) := by
  cases p with
  | fresh task =>
    simp only [Publish.step]
    split <;> exact Or.inl rfl
  | adding task a =>
    have h := addition_strays a now s q
    simp only [Publish.step]
    split <;> next he => rw [he] at h; exact h

section
variable {w : World} (hw : w.Proper)
include hw

theorem store_call {s : Store} (hs : ∀ q, (w.store.shelf q).Strays (s.shelf q)) (ns : List Note)
    {p : Progress Call Outcome} (hp : ∀ c, p = .running c ∨ p = .waiting c → c.Plain) :
    w.CallStep (fun q => additions (w.store.shelf q) (s.shelf q))
      ({ w with store := s }.notes ns, p) :=
  ⟨(store_goes hw hs).recall (notes_store _ ns) (notes_workers _ ns)
    (by rw [notes_calls]; exact hw.calls), notes_calls _ ns, notes_ended _ ns, hp⟩

/-- A call that lets a worker do some work. -/
theorem worker_call {i : Nat} {k k' : Worker} (hk : w.workers[i]? = some k) {ds : List Deed}
    (h : WorkerStep i k ds k') (ns : List Note) {p : Progress Call Outcome}
    (hp : ∀ c, p = .running c ∨ p = .waiting c → c.Plain) :
    w.CallStep (fun q => if k.queue = q then ds else []) ((w.setWorker i k').notes ns, p) :=
  ⟨(worker_goes hk hw h).recall (notes_store _ ns) (notes_workers _ ns)
    (by rw [notes_calls]; exact hw.calls), notes_calls _ ns, notes_ended _ ns, hp⟩

theorem add_call (id : Nat) (a : Addition) :
    w.CallStep (fun q => additions (w.store.shelf q) ((w.stepCall id (.adding a)).1.store.shelf q))
      (w.stepCall id (.adding a)) :=
  store_call hw (addition_strays a w.now w.store) []
    (within_kept (f := Call.adding) fun _ => trivial)

theorem publish_call (id i : Nat) (p : Publish) :
    w.CallStep (fun q => additions (w.store.shelf q)
        ((w.stepCall id (.publishing i p)).1.store.shelf q))
      (w.stepCall id (.publishing i p)) := by
  cases hk : w.workers[i]? with
  | none =>
    simp only [stepCall, hk]
    exact store_call hw (fun q => Or.inl rfl) [] (by simp)
  | some k =>
    simp only [stepCall, hk, notes_store]
    exact store_call hw (publish_strays p w.now k w.store) _
      (within_kept (f := Call.publishing i) fun _ => trivial)

theorem shutdown_call (id i : Nat) (s : Shutdown) :
    w.CallStep (fun _ => []) (w.stepCall id (.shutting i s)) ∧
      ∀ q, (w.stepCall id (.shutting i s)).1.store.shelf q = w.store.shelf q := by
  cases hk : w.workers[i]? with
  | none =>
    simp only [stepCall, hk]
    exact ⟨⟨goes_nowhere hw, rfl, rfl, by simp⟩, fun _ => trivial⟩
  | some k =>
    have hp : k.Proper := hw.workers k (List.mem_of_getElem? hk)
    obtain ⟨hs, hsh⟩ := shutdown_step (i := i) hp w.now w.tokens w.store s
    simp only [stepCall, hk]
    generalize s.step w.now w.tokens w.store k = t at hs hsh ⊢
    have hw' : Proper { w with tokens := t.tokens, store := t.store } :=
      ⟨hw.workers, hw.calls, fun q => hsh q ▸ hw.shelves q⟩
    have hf : ∀ q, flow q { w with tokens := t.tokens, store := t.store } = w.flow q := by
      intro q
      change (⟨t.store.shelf q, _⟩ : Flow) = _
      rw [hsh]
      rfl
    have hc := worker_call hw' hk hs t.notes
      (within_kept (f := Call.shutting i) (g := Outcome.shutDown) (p := t.progress)
        fun _ => trivial)
    simp only [ite_self] at hc
    refine ⟨⟨hc.goes.of_flow hf, hc.calls, hc.ended, hc.plain⟩, fun q => ?_⟩
    rw [notes_store]
    exact hsh q

theorem request_call {i : Nat} {k : Worker} (hk : w.workers[i]? = some k) (id : Nat)
    (r : Request) :
    (w.stepCall id (.requesting i r)).1.store = w.store ∧
      ∃ ds, w.CallStep (fun q => if k.queue = q then ds else [])
          (w.stepCall id (.requesting i r)) ∧
        ∀ now, callDeeds i (endings id now (w.stepCall id (.requesting i r)).2) = ds := by
  have hp : k.Proper := hw.workers k (List.mem_of_getElem? hk)
  have hs := request_step (i := i) hp w.now r
  simp only [stepCall, hk]
  generalize r.step w.now k = t at hs ⊢
  obtain ⟨k', ns, p⟩ := t
  rcases p with r' | r' | e | e
  · exact ⟨notes_store _ _, _, worker_call hw hk hs ns (by simp [Call.Plain]), fun _ => rfl⟩
  · exact ⟨notes_store _ _, _, worker_call hw hk hs ns (by simp [Call.Plain]), fun _ => rfl⟩
  · exact ⟨notes_store _ _, _, worker_call hw hk hs ns (by simp), fun _ => rfl⟩
  · have hc := worker_call hw hk hs ns (p := .done (.requested (.ok e))) (by simp)
    refine ⟨?_, _, ⟨hc.goes.recall (notes_store _ _) (notes_workers _ _) ?_, ?_, ?_, by simp⟩,
      fun _ => rfl⟩
    · rw [notes_store, notes_store]
      rfl
    · rw [notes_calls]
      exact hc.goes.calls
    · rw [notes_calls]
      exact hc.calls
    · rw [notes_ended]
      exact hc.ended

theorem call_follows (id : Nat) :
    w.Follows (fun q => w.deeds q (.step (.call id))) (w.move (.step (.call id))) := by
  cases hc : Table.get? id w.calls with
  | none =>
    have hstep : w.move (.step (.call id)) = w := by simp [move, step, hc]
    have hd : ∀ q, w.deeds q (.step (.call id)) = [] := by
      intro q
      rw [deeds, hstep, (hw.shelves q).additions_nothing rfl]
      simp [agentDeeds, hc]
    simp only [hd, hstep]
    exact (goes_nowhere hw).follows
  | some c =>
    have hstep : w.move (.step (.call id)) = _ := step_call hc
    have follows {ds : Queue → List Deed} (h : w.CallStep ds (w.stepCall id c))
        (hd : ∀ q, w.deeds q (.step (.call id)) = ds q) :
        w.Follows (fun q => w.deeds q (.step (.call id))) (w.move (.step (.call id))) := by
      simp only [hd]
      rw [hstep]
      exact h.follows hw id
    cases c with
    | adding a => exact follows (add_call hw id a) (deeds_unasked hc (by simp))
    | publishing i p => exact follows (publish_call hw id i p) (deeds_unasked hc (by simp))
    | shutting i s =>
      obtain ⟨h, hsh⟩ := shutdown_call hw id i s
      apply follows h
      intro q
      rw [deeds_unasked hc (by simp), hsh, (hw.shelves q).additions_nothing rfl]
    | requesting i r =>
      cases hk : w.workers[i]? with
      | none =>
        have hs : w.stepCall id (.requesting i r) = (w, .done .panicked) := by simp [stepCall, hk]
        have h : w.CallStep (fun _ => []) (w.stepCall id (.requesting i r)) := by
          rw [hs]
          exact ⟨goes_nowhere hw, rfl, rfl, by simp⟩
        apply follows h
        intro q
        rw [deeds_requesting hc (by rw [hs]) h.ended (hw.shelves q)]
        simp [serves, hk]
      | some k =>
        obtain ⟨hs, ds, h, hd⟩ := request_call hw hk id r
        apply follows h
        intro q
        rw [deeds_requesting hc hs h.ended (hw.shelves q), hd]
        simp [serves, hk]
    | _ => exact False.elim (hw.calls id _ hc)

theorem loop_follows (i : Nat) :
    w.Follows (fun q => w.deeds q (.step (.loop i))) (w.move (.step (.loop i))) := by
  have still (hstep : w.move (.step (.loop i)) = w)
      (hd : ∀ q, agentDeeds q w w (.loop i) = []) :
      w.Follows (fun q => w.deeds q (.step (.loop i))) (w.move (.step (.loop i))) := by
    have hd' : ∀ q, w.deeds q (.step (.loop i)) = [] := by
      intro q
      rw [deeds, hstep, (hw.shelves q).additions_nothing rfl]
      exact hd q
    simp only [hd', hstep]
    exact (goes_nowhere hw).follows
  cases hk : w.workers[i]? with
  | none => exact still (by simp [move, step, stepLoop, hk]) (by simp [agentDeeds, hk])
  | some k =>
    cases hc : k.consumer with
    | active c =>
      obtain ⟨s, hs⟩ :
          ∃ s, c.step k.settings w.view w.now (w.isCancelled k.stop) w.store k.handoff = s :=
        ⟨_, rfl⟩
      have hstep : w.move (.step (.loop i)) = _ := stepLoop_active hk hc hs
      have hg := loop_goes hk hw hc hs
      have hi : i < w.workers.length := (List.getElem?_eq_some_iff.mp hk).1
      have hst : (w.move (.step (.loop i))).store = s.store := by simp [hstep, setWorker]
      have hk' : (w.move (.step (.loop i))).workers[i]? =
          some { k with handoff := s.handoff, consumer := s.state } := by
        simp [hstep, setWorker, hi]
      have hd : ∀ q, w.deeds q (.step (.loop i)) =
          additions (w.store.shelf q) (s.store.shelf q) ++
            if k.queue = q then
              loopDeeds i ((w.store.shelf q).gained (s.store.shelf q)) k.consumer s.state
            else [] := by
        intro q
        rw [deeds, agentDeeds, hst, hk, hk']
      simp only [hd]
      rw [hstep]
      exact (hg.recall (by simp [setWorker]) (by simp [setWorker])
        (by simpa [setWorker] using hw.calls)).follows
    | _ =>
      exact still (by simp [move, step, stepLoop, hk, hc])
        (by simp [agentDeeds, hk, hc, loopDeeds])

end

end TaskRelay.World
