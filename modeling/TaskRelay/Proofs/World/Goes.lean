import TaskRelay.Proofs.Worker.Work

/-!
# Worlds that go over into one another

A world goes over into another one if its workers and calls stay in order and every
flow does one step. Dropping the workers that nobody holds or uses afterwards only
ends loops. A worker at work makes its world go over, with the deeds of its work on
its own queue.
-/

set_option autoImplicit false

namespace TaskRelay

def Call.Plain : Call → Prop
  | .adding _ | .publishing _ _ | .requesting _ _ | .shutting _ _ => True
  | _ => False

/-- Somebody of another queue adds to the stream, or does nothing to it. -/
theorem Flow.stray_step {f : Flow} {sh : Shelf} (hf : f.shelf.Sound) (h : f.shelf.Strays sh) :
    f.Step (World.additions f.shelf sh) ⟨sh, f.stations⟩ := by
  rcases h with rfl | ⟨fields, maxLen, rfl⟩
  · rw [hf.additions_nothing rfl]
    exact .rest _
  · rw [World.additions, hf.gained_append]
    exact .add f fields maxLen

namespace World

structure Proper (w : World) : Prop where
  workers : ∀ k ∈ w.workers, k.Proper
  calls : ∀ id c, Table.get? id w.calls = some c → c.Plain
  shelves : ∀ q, (w.store.shelf q).Sound

structure Goes (w : World) (ds : Queue → List Deed) (w' : World) : Prop where
  workers : ∀ k ∈ w'.workers, k.Proper
  calls : ∀ id c, Table.get? id w'.calls = some c → c.Plain
  flow : ∀ q, (w.flow q).Step (ds q) (w'.flow q)

structure Follows (w : World) (ds : Queue → List Deed) (w' : World) : Prop where
  workers : ∀ k ∈ w'.workers, k.Proper
  calls : ∀ id c, Table.get? id w'.calls = some c → c.Plain
  flow : ∀ q, ∃ f, (w.flow q).Step (ds q) f ∧ f.Stops (w'.flow q)

theorem Follows.proper {w w' : World} {ds : Queue → List Deed} (h : w.Follows ds w')
    (hw : w.Proper) : w'.Proper := by
  refine ⟨h.workers, h.calls, fun q => ?_⟩
  obtain ⟨f, hf, hs⟩ := h.flow q
  change (w'.flow q).shelf.Sound
  rw [hs.shelf]
  exact hf.sound (hw.shelves q)

/-- Notes leave everything but the journal and the record of the handlers alone. -/
theorem notes_frame {α : Type} {f : World → α} (hf : ∀ w n, f (note w n) = f w) (w : World)
    (ns : List Note) : f (w.notes ns) = f w := by
  induction ns generalizing w with
  | nil => rfl
  | cons n ns ih => exact (ih (w.note n)).trans (hf w n)

section
variable (w : World) (ns : List Note)

@[simp]
theorem notes_store : (w.notes ns).store = w.store :=
  notes_frame (fun _ n => by cases n <;> rfl) w ns

@[simp]
theorem notes_workers : (w.notes ns).workers = w.workers :=
  notes_frame (fun _ n => by cases n <;> rfl) w ns

@[simp]
theorem notes_calls : (w.notes ns).calls = w.calls :=
  notes_frame (fun _ n => by cases n <;> rfl) w ns

@[simp]
theorem notes_ended : (w.notes ns).ended = w.ended :=
  notes_frame (fun _ n => by cases n <;> rfl) w ns

@[simp]
theorem notes_now : (w.notes ns).now = w.now :=
  notes_frame (fun _ n => by cases n <;> rfl) w ns

@[simp]
theorem notes_nextCall : (w.notes ns).nextCall = w.nextCall :=
  notes_frame (fun _ n => by cases n <;> rfl) w ns

@[simp]
theorem notes_tokens : (w.notes ns).tokens = w.tokens :=
  notes_frame (fun _ n => by cases n <;> rfl) w ns

@[simp]
theorem notes_permits : (w.notes ns).permits = w.permits :=
  notes_frame (fun _ n => by cases n <;> rfl) w ns

end

theorem flow_congr {w w' : World} (hs : w'.store = w.store) (hk : w'.workers = w.workers)
    (q : Queue) : w'.flow q = w.flow q := by
  unfold flow
  rw [hs, hk]

theorem sweep_stops (w : World) (q : Queue) : (w.flow q).Stops (w.sweep.flow q) := by
  refine ⟨rfl, ?_⟩
  rw [List.forall₂_iff_get]
  refine ⟨by simp [flow, sweep], ?_⟩
  intro i h₁ h₂
  simp only [flow, sweep, List.get_eq_getElem, List.getElem_map, List.getElem_mapIdx]
  split
  · exact Or.inl rfl
  · exact Worker.station_aborted q _

theorem sweep_workers {w : World} (hw : ∀ k ∈ w.workers, k.Proper) :
    ∀ k ∈ w.sweep.workers, k.Proper := by
  intro k hk
  obtain ⟨i, hi, rfl⟩ := List.mem_mapIdx.mp hk
  have hp := hw _ (List.getElem_mem hi)
  split
  · exact hp
  · next h =>
    have ha : w.workers[i].consumer.isActive = true := by
      cases hc : w.workers[i].consumer.isActive with
      | true => rfl
      | false => simp [hc] at h
    exact (ending_step (i := i) hp (Or.inr rfl) ha).proper

section
variable {w w' : World} {ds : Queue → List Deed}

theorem Goes.follows (h : w.Goes ds w') : w.Follows ds w' :=
  ⟨h.workers, h.calls, fun q => ⟨_, h.flow q, .refl _⟩⟩

theorem Goes.swept (h : w.Goes ds w') : w.Follows ds w'.sweep :=
  ⟨sweep_workers h.workers, h.calls, fun q => ⟨_, h.flow q, sweep_stops w' q⟩⟩

theorem Goes.of_flow (h : w.Goes ds w') {v : World} (hv : ∀ q, w.flow q = v.flow q) :
    v.Goes ds w' :=
  ⟨h.workers, h.calls, fun q => hv q ▸ h.flow q⟩

/-- The calls may change as long as they stay plain. -/
theorem Goes.recall (h : w.Goes ds w') {v : World} (hs : v.store = w'.store)
    (hk : v.workers = w'.workers) (hc : ∀ id c, Table.get? id v.calls = some c → c.Plain) :
    w.Goes ds v :=
  ⟨hk ▸ h.workers, hc, fun q => flow_congr hs hk q ▸ h.flow q⟩

end

section
variable {w : World} (hw : w.Proper)
include hw

theorem goes_nowhere : w.Goes (fun _ => []) w := ⟨hw.workers, hw.calls, fun _ => .rest _⟩

theorem insert_plain {c : Call} (hc : c.Plain) (id : Nat) :
    ∀ id' c', Table.get? id' (Table.insert id c w.calls) = some c' → c'.Plain := by
  intro id' c' h
  by_cases he : id' = id
  · subst he
    rw [Table.get?_insert_self] at h
    exact Option.some.inj h ▸ hc
  · rw [Table.get?_insert_of_ne he] at h
    exact hw.calls id' c' h

theorem erase_plain (id : Nat) :
    ∀ id' c', Table.get? id' (Table.erase id w.calls) = some c' → c'.Plain := by
  intro id' c' h
  by_cases he : id' = id
  · subst he
    rw [Table.get?_erase_self] at h
    cases h
  · rw [Table.get?_erase_of_ne he] at h
    exact hw.calls id' c' h

theorem begin_goes {c : Call} (hc : c.Plain) : w.Goes (fun _ => []) (w.begin c).1 :=
  (goes_nowhere hw).recall rfl rfl (insert_plain hw hc w.nextCall)

theorem store_goes {s : Store} (h : ∀ q, (w.store.shelf q).Strays (s.shelf q)) :
    w.Goes (fun q => additions (w.store.shelf q) (s.shelf q)) { w with store := s } := by
  exact ⟨hw.workers, hw.calls, fun q => Flow.stray_step (f := w.flow q) (hw.shelves q) (h q)⟩

/-- A store that only differs in what a test may set. -/
theorem knob_goes {s : Store} (h : ∀ q, s.shelf q = w.store.shelf q) :
    w.Goes (fun _ => []) { w with store := s } := by
  refine ⟨hw.workers, hw.calls, fun q => ?_⟩
  change (w.flow q).Step _ ⟨s.shelf q, (w.flow q).stations⟩
  rw [h]
  exact .rest _

end

theorem setWorker_own {w : World} {i : Nat} {k k' : Worker} (hs : k'.settings = k.settings) :
    (w.setWorker i k').flow k.queue =
      ⟨w.store.shelf k.queue, (w.flow k.queue).stations.set i
        ⟨k'.consumer.stage, k'.handoff.slot⟩⟩ := by
  have hq : k'.queue = k.queue := congrArg StreamSettings.queue hs
  simp [flow, setWorker, List.map_set, Worker.station_own hq]

theorem setWorker_workers {w : World} (hw : w.Proper) (i : Nat) {k : Worker} (hk : k.Proper) :
    ∀ k₁ ∈ (w.setWorker i k).workers, k₁.Proper := by
  intro k₁ h
  rcases List.mem_or_eq_of_mem_set h with h | rfl
  · exact hw.workers k₁ h
  · exact hk

section
variable {w : World} {i : Nat} {k : Worker} (hk : w.workers[i]? = some k)
include hk

theorem flow_station (q : Queue) : (w.flow q).stations[i]? = some (k.station q) := by
  simp [flow, hk]

theorem setWorker_other {q : Queue} (hq : k.queue ≠ q) {k' : Worker}
    (hs : k'.settings = k.settings) : (w.setWorker i k').flow q = w.flow q := by
  have hq' : k'.queue ≠ q := fun h => hq ((congrArg StreamSettings.queue hs).symm.trans h)
  have hst := flow_station hk q
  rw [Worker.station_other hq, ← Worker.station_other hq'] at hst
  obtain ⟨hi, hst⟩ := List.getElem?_eq_some_iff.mp hst
  unfold flow at hst ⊢
  simp only [setWorker, List.map_set, Flow.mk.injEq, true_and]
  rw [← hst]
  exact List.set_getElem_self hi

/-- A worker that does work leaves the flows of other queues alone. -/
theorem worker_goes (hw : w.Proper) {ds : List Deed} {k' : Worker} (h : WorkerStep i k ds k') :
    w.Goes (fun q => if k.queue = q then ds else []) (w.setWorker i k') := by
  refine ⟨setWorker_workers hw i h.proper, hw.calls, fun q => ?_⟩
  by_cases hq : k.queue = q
  · subst hq
    rw [if_pos rfl, setWorker_own h.settings]
    have hst := flow_station hk k.queue
    rw [Worker.station_own rfl] at hst
    exact .work hst (h.work _)
  · rw [if_neg hq, setWorker_other hk hq h.settings]
    exact .rest _

theorem loop_goes (hw : w.Proper) {c : Consumer} (hc : k.consumer = .active c)
    {s : ConsumerStep}
    (h : c.step k.settings w.view w.now (w.isCancelled k.stop) w.store k.handoff = s) :
    w.Goes (fun q => additions (w.store.shelf q) (s.store.shelf q) ++
        if k.queue = q then
          loopDeeds i ((w.store.shelf q).gained (s.store.shelf q)) k.consumer s.state
        else [])
      ({ w with store := s.store }.setWorker i
        { k with handoff := s.handoff, consumer := s.state }) := by
  have hp : k.Proper := hw.workers k (List.mem_of_getElem? hk)
  have hown : c.Own k.settings := by simpa [hc, LoopState.Own] using hp.own
  have hs : LoopStep i k c w.store s := h ▸ loop_step (hw.shelves k.queue) hown w.view _
  have hk' : ({ w with store := s.store } : World).workers[i]? = some k := hk
  refine ⟨?_, hw.calls, fun q => ?_⟩
  · refine setWorker_workers hw i ⟨?_, hs.own⟩
    intro h
    have := hp.unspawned h
    simp [hc] at this
  have hset : { k with handoff := s.handoff, consumer := s.state }.settings = k.settings := rfl
  by_cases hq : k.queue = q
  · subst hq
    rw [if_pos rfl, setWorker_own hset, hc]
    have hst := flow_station hk k.queue
    rw [Worker.station_own rfl, hc] at hst
    exact .work hst hs.work
  · rw [if_neg hq, setWorker_other hk' hq hset, List.append_nil]
    exact Flow.stray_step (hw.shelves q) (hs.others q (Ne.symm hq))

end

theorem stepLoop_active {w : World} {i : Nat} {k : Worker} {c : Consumer}
    (hk : w.workers[i]? = some k) (hc : k.consumer = .active c) {s : ConsumerStep}
    (h : c.step k.settings w.view w.now (w.isCancelled k.stop) w.store k.handoff = s) :
    (w.stepLoop i).1 = ({ w with store := s.store }.notes s.notes).setWorker i
      { k with handoff := s.handoff, consumer := s.state } := by
  simp only [stepLoop, hk, hc, h]
  obtain ⟨store, handoff, notes, progress⟩ := s
  rcases progress with c' | c' | e
  · rfl
  · rfl
  · cases e <;> rfl

end World

end TaskRelay
