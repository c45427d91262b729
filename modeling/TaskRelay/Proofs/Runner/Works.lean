import TaskRelay.Proofs.Runner.Steps

/-!
# Worlds that go over into one another, with runners

In a world with runners there are calls of more kinds than those of workers and producers. A
flow does not see calls, so what is known of requests, shutdowns and additions applies to it.
Beyond that it is kept here what becomes of each worker: its settings and its handler stay,
and an entry leaves its slot only to be returned or to be added again.
-/

set_option autoImplicit false

namespace TaskRelay

def Call.Served : Call → Prop
  | .driving r => ∃ i, r.Mans i
  | .dispatched _ _ _ _ => True
  | c => c.Plain

def Call.asked? : Call → Option Nat
  | .requesting i _ => some i
  | .driving r =>
    match r.source with
    | .worker i => some i
    | .supplies _ => none
  | _ => none

namespace World

structure Staffed (w : World) : Prop where
  workers : ∀ k ∈ w.workers, k.Proper
  calls : ∀ n c, w.call? n = some c → c.Served ∧ n < w.nextCall
  younger : ∀ n c d, w.call? n = some c → c.ordered? d ≠ none → d < n
  past : ∀ e ∈ w.ended, e.call < w.nextCall
  shelves : ∀ q, (w.store.shelf q).Sound
  fits : ∀ q, (w.flow q).Fit

def bare (w : World) : World := { w with calls := [] }

theorem Staffed.bare {w : World} (hw : w.Staffed) : w.bare.Proper := by
  refine ⟨hw.workers, ?_, hw.shelves⟩
  intro n c hc
  cases hc

end World

structure Worker.Stays (i : Nat) (ds : List Deed) (k k' : Worker) : Prop where
  settings : k'.settings = k.settings
  handler : k'.handler = k.handler
  slot : k'.handoff.slot = k.handoff.slot ∨ ∃ e, k.handoff.slot = some e ∧ .returned i e ∈ ds

structure Worker.Lasts (i : Nat) (ds : List Deed) (k k' : Worker) : Prop where
  settings : k'.settings = k.settings
  handler : k'.handler = k.handler
  slot : ∀ e, k.handoff.slot = some e → k'.handoff.slot = some e ∨ .returned i e ∈ ds ∨
    ∃ rest, k'.consumer.stage = .requeueing (e :: rest)

theorem Worker.Stays.lasts {i : Nat} {ds : List Deed} {k k' : Worker} (h : k.Stays i ds k') :
    k.Lasts i ds k' := by
  refine ⟨h.settings, h.handler, fun e he => ?_⟩
  rcases h.slot with hs | ⟨x, hx, hd⟩
  · exact Or.inl (hs.trans he)
  · obtain rfl : x = e := Option.some.inj (hx.symm.trans he)
    exact Or.inr (Or.inl hd)

theorem StaffStep.stays {i : Nat} {ds : List Deed} {k k' : Worker} (h : StaffStep i k ds k') :
    k.Stays i ds k' :=
  ⟨h.settings, h.handler, h.slot⟩

theorem Worker.Stays.weaken {i : Nat} {k k' : Worker} (h : k.Stays i [] k') (ds : List Deed) :
    k.Stays i ds k' :=
  ⟨h.settings, h.handler, h.slot.imp_right fun ⟨_, _, hd⟩ => absurd hd List.not_mem_nil⟩

/-- What a loop that offers finds in the slot it may take back. -/
theorem Work.slot {i : Nat} {sh sh' : Shelf} {p p' : Station} {ds : List Deed}
    (h : Work i sh p ds sh' p') (hf : p.Fit) {e : Entry} (he : p.slot = some e) :
    p'.slot = some e ∨ .returned i e ∈ ds ∨ ∃ rest, p'.stage = .requeueing (e :: rest) := by
  cases h with
  | offer x rest slot =>
    obtain rfl : slot = none := hf
    cases he
  | refuse x rest slot =>
    obtain rfl : slot = none := hf
    cases he
  | accept => cases he
  | reclaim id x rest =>
    obtain rfl : x = e := Option.some.inj he
    exact Or.inr (Or.inr ⟨rest, rfl⟩)
  | take stage x =>
    obtain rfl : x = e := Option.some.inj he
    exact Or.inr (Or.inl (List.mem_singleton_self _))
  | _ => exact Or.inl he

namespace World

def Staffs (w : World) (ds : Queue → List Deed) (w' : World) : Prop :=
  ∀ (i : Nat) (k : Worker), w.workers[i]? = some k →
    ∃ k' : Worker, w'.workers[i]? = some k' ∧ k.Stays i (ds k.queue) k'

namespace Staffs

variable {w w' w'' : World} {ds : Queue → List Deed}

theorem same (h : w'.workers = w.workers) : w.Staffs ds w' :=
  fun _ k hk => ⟨k, h ▸ hk, rfl, rfl, Or.inl rfl⟩

theorem trans (h : w.Staffs ds w') (h' : w'.Staffs (fun _ => []) w'') : w.Staffs ds w'' := by
  intro i k hk
  obtain ⟨k₁, hk₁, h⟩ := h i k hk
  obtain ⟨k₂, hk₂, h'⟩ := h' i k₁ hk₁
  refine ⟨k₂, hk₂, h'.settings.trans h.settings, h'.handler.trans h.handler, ?_⟩
  rcases h'.slot with hs | ⟨e, -, he⟩
  · rw [hs]
    exact h.slot
  · cases he

theorem set {i : Nat} {k k' : Worker} (hk : w.workers[i]? = some k)
    (h : k.Stays i (ds k.queue) k') : w.Staffs ds (w.setWorker i k') := by
  intro j k₁ hk₁
  by_cases hj : i = j
  · subst hj
    obtain rfl : k = k₁ := Option.some.inj (hk.symm.trans hk₁)
    exact ⟨k', List.getElem?_set_self (List.getElem?_eq_some_iff.mp hk).1, h⟩
  · exact ⟨k₁, (List.getElem?_set_ne hj).trans hk₁, rfl, rfl, Or.inl rfl⟩

theorem swept (w : World) : w.Staffs ds w.sweep := by
  intro i k hk
  simp only [sweep, List.getElem?_mapIdx, hk, Option.map_some]
  refine ⟨_, rfl, ?_⟩
  split <;> exact ⟨rfl, rfl, Or.inl rfl⟩

theorem joined {k : Worker} (h : w'.workers = w.workers ++ [k]) : w.Staffs ds w' := by
  intro i k₁ hk₁
  refine ⟨k₁, ?_, rfl, rfl, Or.inl rfl⟩
  rw [h, List.getElem?_append_left (List.getElem?_eq_some_iff.mp hk₁).1]
  exact hk₁

end Staffs

def Keeps (w : World) (ds : Queue → List Deed) (w' : World) : Prop :=
  ∀ (i : Nat) (k : Worker), w.workers[i]? = some k →
    ∃ k' : Worker, w'.workers[i]? = some k' ∧ k.Lasts i (ds k.queue) k'

theorem Staffs.keeps {w w' : World} {ds : Queue → List Deed} (h : w.Staffs ds w') :
    w.Keeps ds w' := by
  intro i k hk
  obtain ⟨k', hk', h'⟩ := h i k hk
  exact ⟨k', hk', h'.lasts⟩

structure Works (w : World) (ds : Queue → List Deed) (w' : World) : Prop where
  workers : ∀ k ∈ w'.workers, k.Proper
  staffs : w.Staffs ds w'
  flow : ∀ q, (w.flow q).Step (ds q) (w'.flow q)

structure Passes (w : World) (ds : Queue → List Deed) (w' : World) : Prop where
  workers : ∀ k ∈ w'.workers, k.Proper
  keeps : w.Keeps ds w'
  flow : ∀ q, ∃ f, (w.flow q).Step (ds q) f ∧ f.Stops (w'.flow q)

namespace Passes

variable {w w' : World} {ds : Queue → List Deed} (h : w.Passes ds w')
include h

theorem shelves (hs : ∀ q, (w.store.shelf q).Sound) (q : Queue) : (w'.store.shelf q).Sound := by
  obtain ⟨f, hf, hstop⟩ := h.flow q
  change (w'.flow q).shelf.Sound
  rw [hstop.shelf]
  exact hf.sound (hs q)

theorem fits (hs : ∀ q, (w.flow q).Fit) (q : Queue) : (w'.flow q).Fit := by
  obtain ⟨f, hf, hstop⟩ := h.flow q
  exact hstop.fit (hf.fit (hs q))

end Passes

namespace Works

variable {w w' : World} {ds : Queue → List Deed}

theorem as (h : w.Works ds w') {v : World} (hs : v.store = w'.store)
    (hk : v.workers = w'.workers) : w.Works ds v :=
  ⟨hk ▸ h.workers, h.staffs.trans (.same hk), fun q => flow_congr hs hk q ▸ h.flow q⟩

/-- A world that only differs in its store may take the place of a world if no shelf differs. -/
theorem of_store (h : w.Works ds w') {v : World} (hs : ∀ q, v.store.shelf q = w.store.shelf q)
    (hk : v.workers = w.workers) : v.Works ds w' := by
  refine ⟨h.workers, fun i k hi => h.staffs i k (hk ▸ hi), fun q => ?_⟩
  have hf : v.flow q = w.flow q := by simp only [World.flow, hs, hk]
  exact hf ▸ h.flow q

theorem passes (h : w.Works ds w') : w.Passes ds w' :=
  ⟨h.workers, h.staffs.keeps, fun q => ⟨_, h.flow q, .refl _⟩⟩

theorem swept (h : w.Works ds w') : w.Passes ds w'.sweep :=
  ⟨sweep_workers h.workers, (h.staffs.trans (.swept w')).keeps,
    fun q => ⟨_, h.flow q, sweep_stops w' q⟩⟩

theorem concluded (h : w.Works ds w') (n : Nat) (p : Progress Call Outcome) :
    w.Passes ds (w'.conclude n p) := by
  cases p with
  | running c | waiting c => exact (h.as (v := w'.setCall n c) rfl rfl).passes
  | done o =>
    exact (h.as (v := { w' with
      calls := Table.erase n w'.calls, ended := w'.ended ++ [⟨n, w'.now, o⟩] }) rfl rfl).swept

section
variable (hw : w.Staffed)
include hw

theorem still : w.Works (fun _ => []) w := ⟨hw.workers, .same rfl, fun _ => .rest _⟩

theorem store {s : Store} (h : ∀ q, (w.store.shelf q).Strays (s.shelf q)) :
    w.Works (fun q => additions (w.store.shelf q) (s.shelf q)) { w with store := s } :=
  ⟨hw.workers, .same rfl, (store_goes hw.bare h).flow⟩

theorem worker {i : Nat} {k k' : Worker} (hk : w.workers[i]? = some k) {ds : List Deed}
    (h : StaffStep i k ds k') :
    w.Works (fun q => if k.queue = q then ds else []) (w.setWorker i k') := by
  have hg := worker_goes (show w.bare.workers[i]? = some k from hk) hw.bare h.toWorkerStep
  exact ⟨hg.workers, .set hk (by simpa using h.stays), hg.flow⟩

theorem idler {i : Nat} {k k' : Worker} (hk : w.workers[i]? = some k)
    (h : StaffStep i k [] k') : w.Works (fun _ => []) (w.setWorker i k') := by
  simpa only [ite_self] using worker hw hk h

end

end Works

structure Plods (w : World) (ds : Queue → List Deed) (c : Call)
    (r : World × Progress Call Outcome) : Prop where
  works : w.Works ds r.1
  calls : r.1.calls = w.calls
  nextCall : r.1.nextCall = w.nextCall
  ended : r.1.ended = w.ended
  on : ∀ c', r.2 = .running c' ∨ r.2 = .waiting c' → c'.Plain ∧ c'.asked? = c.asked?

/-- A world in which somebody did the work `ds`, up to notes. -/
theorem plods_noted {w w' : World} {ds : Queue → List Deed} {c : Call}
    {p : Progress Call Outcome} (h : w.Works ds w') (calls : w'.calls = w.calls)
    (next : w'.nextCall = w.nextCall) (ended : w'.ended = w.ended) (ns : List Note)
    (on : ∀ c', p = .running c' ∨ p = .waiting c' → c'.Plain ∧ c'.asked? = c.asked?) :
    w.Plods ds c (w'.notes ns, p) := by
  have hm := Matches.notes w' ns
  exact ⟨h.as hm.store hm.workers, hm.calls.trans calls, hm.nextCall.trans next,
    hm.ended.trans ended, on⟩

section
variable {w : World} (hw : w.Staffed)
include hw

/-- A call on a worker that does not exist. -/
theorem plods_nowhere (c : Call) (o : Outcome) : w.Plods (fun _ => []) c (w, .done o) :=
  ⟨.still hw, rfl, rfl, rfl, by simp⟩

theorem adding_plods (n : Nat) (a : Addition) :
    w.Plods (fun q => additions (w.store.shelf q) ((w.stepCall n (.adding a)).1.store.shelf q))
      (.adding a) (w.stepCall n (.adding a)) :=
  plods_noted (.store hw (addition_strays a w.now w.store)) rfl rfl rfl []
    (within_kept (f := Call.adding) fun _ => ⟨trivial, rfl⟩)

theorem publishing_plods (n i : Nat) (p : Publish) :
    w.Plods (fun q => additions (w.store.shelf q)
        ((w.stepCall n (.publishing i p)).1.store.shelf q))
      (.publishing i p) (w.stepCall n (.publishing i p)) := by
  cases hk : w.workers[i]? with
  | none =>
    simp only [stepCall, hk, fun q => (hw.shelves q).additions_nothing rfl]
    exact plods_nowhere hw _ _
  | some k =>
    simp only [stepCall, hk, notes_store]
    exact plods_noted (.store hw (publish_strays p w.now k w.store)) rfl rfl rfl _
      (within_kept (f := Call.publishing i) fun _ => ⟨trivial, rfl⟩)

theorem shutting_plods (n i : Nat) (s : Shutdown) :
    w.Plods (fun _ => []) (.shutting i s) (w.stepCall n (.shutting i s)) ∧
      ∀ q, (w.stepCall n (.shutting i s)).1.store.shelf q = w.store.shelf q := by
  cases hk : w.workers[i]? with
  | none =>
    simp only [stepCall, hk]
    exact ⟨plods_nowhere hw _ _, fun _ => trivial⟩
  | some k =>
    have hp : k.Proper := hw.workers k (List.mem_of_getElem? hk)
    have hs := shutdown_staff (i := i) hp w.now w.tokens w.store s
    have hsh := (shutdown_step (i := i) hp w.now w.tokens w.store s).2
    simp only [stepCall, hk]
    generalize s.step w.now w.tokens w.store k = t at hs hsh ⊢
    have hf (q : Queue) : flow q { w with tokens := t.tokens, store := t.store } = w.flow q := by
      simp only [flow, hsh]
    have hw' : Staffed { w with tokens := t.tokens, store := t.store } :=
      ⟨hw.workers, hw.calls, hw.younger, hw.past, fun q => hsh q ▸ hw.shelves q,
        fun q => hf q ▸ hw.fits q⟩
    have h := (Works.idler hw' hk hs).of_store (v := w) (fun q => (hsh q).symm) rfl
    refine ⟨plods_noted h rfl rfl rfl t.notes
      (within_kept (f := Call.shutting i) fun _ => ⟨trivial, rfl⟩), fun q => ?_⟩
    rw [notes_store]
    exact hsh q

theorem requesting_plods {i : Nat} {k : Worker} (hk : w.workers[i]? = some k) (n : Nat)
    (r : Request) :
    (w.stepCall n (.requesting i r)).1.store = w.store ∧
      ∃ ds, w.Plods (fun q => if k.queue = q then ds else []) (.requesting i r)
          (w.stepCall n (.requesting i r)) ∧
        ∀ now, callDeeds i (endings n now (w.stepCall n (.requesting i r)).2) = ds := by
  have hs := request_staff (i := i) (hw.workers k (List.mem_of_getElem? hk)) w.now r
  simp only [stepCall, hk]
  generalize r.step w.now k = t at hs ⊢
  obtain ⟨k', ns, p⟩ := t
  have h := Works.worker hw hk hs
  rcases p with r' | r' | e | e
  · exact ⟨notes_store _ _, _,
      plods_noted h rfl rfl rfl ns (by simp [Call.Plain, Call.asked?]), fun _ => rfl⟩
  · exact ⟨notes_store _ _, _,
      plods_noted h rfl rfl rfl ns (by simp [Call.Plain, Call.asked?]), fun _ => rfl⟩
  · exact ⟨notes_store _ _, _, plods_noted h rfl rfl rfl ns (by simp), fun _ => rfl⟩
  · have hm := Matches.notes (w.setWorker i k') ns
    exact ⟨(notes_store _ _).trans (notes_store _ _), _,
      plods_noted (h.as hm.store hm.workers) hm.calls hm.nextCall hm.ended _ (by simp),
      fun _ => rfl⟩

/-- The deeds of a call of a worker or a producer are those of its work. -/
theorem plain_step {n : Nat} {c : Call} (hc : Table.get? n w.calls = some c) (hp : c.Plain) :
    w.Plods (fun q => w.deeds q (.step (.call n))) c (w.stepCall n c) := by
  have plods {ds : Queue → List Deed} (h : w.Plods ds c (w.stepCall n c))
      (hd : ∀ q, w.deeds q (.step (.call n)) = ds q) :
      w.Plods (fun q => w.deeds q (.step (.call n))) c (w.stepCall n c) := by
    simpa only [hd] using h
  cases c with
  | adding a => exact plods (adding_plods hw n a) (deeds_unasked hc (by simp))
  | publishing i p => exact plods (publishing_plods hw n i p) (deeds_unasked hc (by simp))
  | shutting i s =>
    obtain ⟨h, hsh⟩ := shutting_plods hw n i s
    apply plods h
    intro q
    rw [deeds_unasked hc (by simp), hsh, (hw.shelves q).additions_nothing rfl]
  | requesting i r =>
    cases hk : w.workers[i]? with
    | none =>
      have hs : w.stepCall n (.requesting i r) = (w, .done .panicked) := by simp [stepCall, hk]
      apply plods (hs ▸ plods_nowhere hw _ _)
      intro q
      rw [deeds_requesting hc (by rw [hs]) (by rw [hs]) (hw.shelves q)]
      simp [serves, hk]
    | some k =>
      obtain ⟨hs, ds, h, hd⟩ := requesting_plods hw hk n r
      apply plods h
      intro q
      rw [deeds_requesting hc hs h.ended (hw.shelves q), hd]
      simp [serves, hk]
  | _ => exact False.elim hp

end

end World

end TaskRelay
