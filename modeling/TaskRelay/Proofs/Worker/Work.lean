import TaskRelay.Proofs.Handoff.Slot
import TaskRelay.Proofs.World.Flow

/-!
# What loops, requests and shutdowns do

Each uninterrupted action of a consumer loop is one piece of work on the shelf of
its queue, and leaves the other shelves alone up to an addition to the same stream.
A request does nothing but spawn the loop or empty the slot, and a shutdown at most
ends the loop.
-/

set_option autoImplicit false

namespace TaskRelay
open World

def Consumer.Own (cfg : StreamSettings) : Consumer → Prop
  | .reading r => r.queue = cfg.queue
  | .adding a _ _ => a.stream = cfg.stream
  | _ => True

def LoopState.Own (cfg : StreamSettings) : LoopState → Prop
  | .active c => c.Own cfg
  | _ => True

structure Worker.Proper (k : Worker) : Prop where
  unspawned : k.lifecycle = .notStarted → k.consumer = .absent
  own : k.consumer.Own k.settings

def ConsumerStep.state (s : ConsumerStep) : LoopState :=
  match s.progress with
  | .running c | .waiting c => .active c
  | .done .finished => .finished
  | .done .panicked => .panicked

def Shelf.Strays (sh sh' : Shelf) : Prop :=
  sh' = sh ∨ ∃ fields maxLen, sh' = sh.append fields maxLen

structure LoopStep (i : Nat) (k : Worker) (c : Consumer) (store : Store) (s : ConsumerStep) :
    Prop where
  own : s.state.Own k.settings
  work : Work i (store.shelf k.queue) ⟨c.stage, k.handoff.slot⟩
    (additions (store.shelf k.queue) (s.store.shelf k.queue) ++
      loopDeeds i ((store.shelf k.queue).gained (s.store.shelf k.queue)) (.active c) s.state)
    (s.store.shelf k.queue) ⟨s.state.stage, s.handoff.slot⟩
  others : ∀ q, q ≠ k.queue → (store.shelf q).Strays (s.store.shelf q)

theorem Shelf.Sound.additions_nothing {sh sh' : Shelf} (hs : sh.Sound)
    (he : sh'.entries = sh.entries) : additions sh sh' = [] := by
  rw [additions, hs.gained_nothing he, List.map_nil]

section
variable {i now : Nat} {k : Worker} {c : Consumer} {store : Store}

/-- A step of the loop that changes no shelf. -/
theorem LoopStep.quiet {s : ConsumerStep} (hs : (store.shelf k.queue).Sound)
    (same : ∀ q, s.store.shelf q = store.shelf q) (own : s.state.Own k.settings)
    (work : Work i (store.shelf k.queue) ⟨c.stage, k.handoff.slot⟩
      (loopDeeds i [] (.active c) s.state) (store.shelf k.queue)
      ⟨s.state.stage, s.handoff.slot⟩) : LoopStep i k c store s := by
  refine ⟨own, ?_, fun q _ => Or.inl (same q)⟩
  rw [same, hs.additions_nothing rfl, hs.gained_nothing rfl]
  exact work

theorem afterRead_step (hs : (store.shelf k.queue).Sound)
    (hc : c = .top ∨ ∃ r, c = .reading r) {s' : Store} {p : Progress GroupRead ReadResult}
    (h : ReadStep k.queue store (s', p)) :
    LoopStep i k c store (Consumer.afterRead k.settings now s' k.handoff p) := by
  have hidle : c.stage = .idle := by rcases hc with rfl | ⟨r, rfl⟩ <;> rfl
  have hnone : ∀ st : LoopState, (∀ es, st ≠ .active (.holding es)) →
      loopDeeds i [] (.active c) st = [] := by
    rcases hc with rfl | ⟨r, rfl⟩ <;> intro st hst <;> unfold loopDeeds <;> split <;> simp_all
  cases h with
  | @waiting _ r same own =>
    refine .quiet hs same own ?_
    rw [hnone _ (by simp [ConsumerStep.state, Consumer.afterRead]), hidle]
    exact .rest _ _
  | empty same =>
    refine .quiet hs same trivial ?_
    rw [hnone _ (by simp [ConsumerStep.state, Consumer.afterRead]), hidle]
    exact .rest _ _
  | failed same =>
    refine .quiet hs same trivial ?_
    rw [hnone _ (by simp [ConsumerStep.state, Consumer.afterRead]), hidle]
    exact .rest _ _
  | @handed _ consumer bs hands others =>
    have he : (s'.shelf k.queue).entries = (store.shelf k.queue).entries := by
      obtain ⟨g, -, h⟩ := hands.after
      rw [h]
    have hstep : Consumer.afterRead k.settings now s' k.handoff (.done (.ok (bs.map numbered))) =
        ⟨s', k.handoff, [], .running (.holding (bs.map numbered))⟩ := by
      cases bs with
      | nil => exact absurd rfl hands.some_entry
      | cons b bs => rfl
    rw [hstep]
    refine ⟨trivial, ?_, fun q hq => Or.inl (others q hq)⟩
    have hd : loopDeeds i [] (.active c) (.active (.holding (bs.map numbered))) =
        [.handed i (bs.map numbered)] := by
      rcases hc with rfl | ⟨r, rfl⟩ <;> rfl
    rw [hs.additions_nothing he, hs.gained_nothing he, hidle]
    change Work i _ _ ([] ++ loopDeeds i [] (.active c) (.active (.holding (bs.map numbered)))) _ _
    rw [hd]
    exact .hand _ hands

theorem holding_step (hs : (store.shelf k.queue).Sound) (e : Entry) (rest : List Entry)
    (stopped : Bool) :
    LoopStep i k (.holding (e :: rest)) store
      (Consumer.afterOffer store (k.handoff.beginOffer e stopped).1 e.id rest
        (k.handoff.beginOffer e stopped).2) := by
  have hb := Handoff.beginOffer_slot k.handoff e stopped
  generalize k.handoff.beginOffer e stopped = r at hb ⊢
  obtain ⟨h, p⟩ := r
  rcases hb with ⟨o, rfl, hslot⟩ | ⟨rfl, hslot⟩
  · refine .quiet hs (fun _ => rfl) trivial ?_
    change Work i _ _ [] _ ⟨.offering e.id rest, h.slot⟩
    rw [show h.slot = some e from hslot]
    exact .offer _ _ _ _
  · refine .quiet hs (fun _ => rfl) trivial ?_
    change Work i _ _ [] _ ⟨.requeueing (e :: rest), h.slot⟩
    rw [show h.slot = none from hslot]
    exact .refuse _ _ _ _

theorem offering_step (hs : (store.shelf k.queue).Sound) (o : Offer) (id : String)
    (rest : List Entry) (stopped : Bool) :
    LoopStep i k (.offering o id rest) store
      (Consumer.afterOffer store (o.resume k.handoff stopped).1 id rest
        (o.resume k.handoff stopped).2) := by
  have hb := Offer.resume_slot o k.handoff stopped
  generalize o.resume k.handoff stopped = r at hb ⊢
  obtain ⟨h, p⟩ := r
  rcases hb with ⟨o', rfl, hslot⟩ | ⟨hn, rfl, hslot⟩ | ⟨e, he, rfl, hslot⟩
  · refine .quiet hs (fun _ => rfl) trivial ?_
    change Work i _ ⟨.offering id rest, _⟩ [] _ ⟨.offering id rest, h.slot⟩
    rw [show h.slot = k.handoff.slot from hslot]
    exact .rest _ _
  · refine .quiet hs (fun _ => rfl) trivial ?_
    change Work i _ ⟨.offering id rest, _⟩ [] _ ⟨.acking id rest, h.slot⟩
    rw [hn, show h.slot = none from hslot]
    exact .accept _ _ _
  · refine .quiet hs (fun _ => rfl) trivial ?_
    change Work i _ ⟨.offering id rest, _⟩ [] _ ⟨.requeueing (e :: rest), h.slot⟩
    rw [he, show h.slot = none from hslot]
    exact .reclaim _ _ _ _

theorem acking_step (hs : (store.shelf k.queue).Sound) (id : String) (rest : List Entry)
    (notes : List Note) {s' : Store}
    (ha : ∀ q, s'.shelf q = store.shelf q ∨
      q = k.queue ∧ ∃ n, entryNumber? id = some n ∧ s'.shelf q = (store.shelf q).ack n) :
    LoopStep i k (.acking id rest) store
      ⟨s', k.handoff, notes, .running (.holding rest)⟩ := by
  have he : (s'.shelf k.queue).entries = (store.shelf k.queue).entries := by
    rcases ha k.queue with h | ⟨-, n, -, h⟩ <;> rw [h]
    rfl
  refine ⟨trivial, ?_, ?_⟩
  · rw [hs.additions_nothing he, hs.gained_nothing he]
    refine .ack rest _ ?_
    rcases ha k.queue with h | ⟨-, n, hn, h⟩
    · exact Or.inl h
    · exact Or.inr ⟨n, hn, h⟩
  · intro q hq
    rcases ha q with h | ⟨h, -⟩
    · exact Or.inl h
    · exact absurd h hq

theorem adding_step (hs : (store.shelf k.queue).Sound) {a : Addition}
    (own : a.stream = k.settings.stream) (id : String) (rest : List Entry) (view : StoreView)
    (stopped : Bool) :
    LoopStep i k (.adding a id rest) store
      (Consumer.step k.settings view now stopped store k.handoff (.adding a id rest)) := by
  have h := add_resume_step a now store
  simp only [Consumer.step]
  generalize a.resume now store = r at h ⊢
  cases h with
  | waiting => exact .quiet hs (fun _ => rfl) own (.rest _ _)
  | failed => exact .quiet hs (fun _ => rfl) trivial (.skip _ _ _ _)
  | @added s' appended =>
    refine ⟨trivial, ?_, ?_⟩
    · have hq : s'.shelf k.queue = (store.shelf k.queue).append a.fields a.maxLen := by
        rw [appended]
        exact if_pos own.symm
      change Work i _ _ (additions _ (s'.shelf k.queue) ++
        ((store.shelf k.queue).gained (s'.shelf k.queue)).map _) (s'.shelf k.queue) _
      rw [hq, additions, hs.gained_append]
      exact .readd _ ⟨id, a.fields⟩ rest _ a.maxLen
    · intro q _
      change (store.shelf q).Strays (s'.shelf q)
      rw [appended]
      split
      · exact Or.inr ⟨_, _, rfl⟩
      · exact Or.inl rfl

/-- Every step of a consumer loop is one piece of work on its queue. -/
theorem loop_step (hs : (store.shelf k.queue).Sound) (own : c.Own k.settings) (view : StoreView)
    (stopped : Bool) :
    LoopStep i k c store (c.step k.settings view now stopped store k.handoff) := by
  cases c with
  | spawned => exact .quiet hs (fun _ => rfl) trivial (.rest _ _)
  | top =>
    simp only [Consumer.step]
    split
    · exact .quiet hs (fun _ => rfl) trivial (.stop _ _)
    · split
      · exact .quiet hs (fun _ => rfl) trivial (.stop _ _)
      · exact afterRead_step hs (Or.inl rfl) (beginRead_step store now k.queue _ _ _)
  | reading r =>
    simp only [Consumer.step]
    split
    · exact .quiet hs (fun _ => rfl) trivial (.stop _ _)
    · have h := read_resume_step r now store
      rw [show r.queue = k.queue from own] at h
      exact afterRead_step hs (Or.inr ⟨r, rfl⟩) h
  | pausing d =>
    simp only [Consumer.step]
    split
    · exact .quiet hs (fun _ => rfl) trivial (.stop _ _)
    · split
      · exact .quiet hs (fun _ => rfl) trivial (.rest _ _)
      · exact .quiet hs (fun _ => rfl) trivial (.rest _ _)
  | holding es =>
    cases es with
    | nil => exact .quiet hs (fun _ => rfl) trivial (.finish _ _)
    | cons e rest => exact holding_step hs e rest stopped
  | offering o id rest => exact offering_step hs o id rest stopped
  | acking id rest => exact acking_step hs id rest _ (Store.ack_shelf store k.queue id)
  | requeueing es =>
    cases es with
    | nil => exact .quiet hs (fun _ => rfl) trivial (.stop _ _)
    | cons e rest => exact .quiet hs (fun _ => rfl) rfl (.pick _ _ _ _)
  | adding a id rest => exact adding_step hs own id rest view stopped

end

structure WorkerStep (i : Nat) (k : Worker) (ds : List Deed) (k' : Worker) : Prop where
  proper : k'.Proper
  settings : k'.settings = k.settings
  work : ∀ sh, Work i sh ⟨k.consumer.stage, k.handoff.slot⟩ ds sh
    ⟨k'.consumer.stage, k'.handoff.slot⟩

def Request.returns (i : Nat) : Progress Request (Except WorkerError Entry) → List Deed
  | .done (.ok e) => [.returned i e]
  | _ => []

section
variable {i : Nat} {k : Worker} (hk : k.Proper)
include hk

theorem spawn_step : WorkerStep i k [] k.spawn := by
  unfold Worker.spawn
  split
  · next h =>
    refine ⟨⟨by simp, trivial⟩, rfl, fun sh => ?_⟩
    rw [hk.unspawned h]
    exact .rest _ _
  · exact ⟨hk, rfl, fun sh => .rest _ _⟩

theorem rebell_step {h : Handoff Entry} (hslot : h.slot = k.handoff.slot) :
    WorkerStep i k [] { k with handoff := h } := by
  refine ⟨⟨hk.unspawned, hk.own⟩, rfl, fun sh => ?_⟩
  change Work i sh _ [] sh ⟨k.consumer.stage, h.slot⟩
  rw [hslot]
  exact .rest _ _

theorem ending_step {st : LoopState} (hst : st = .panicked ∨ st = .aborted)
    (hl : k.consumer.isActive = true) : WorkerStep i k [] { k with consumer := st } := by
  have ha : k.lifecycle ≠ .notStarted := by
    intro h
    rw [hk.unspawned h] at hl
    exact Bool.false_ne_true hl
  rcases hst with rfl | rfl <;>
    exact ⟨⟨fun h => absurd h ha, trivial⟩, rfl, fun sh => .stop sh _⟩

theorem abandon_step (r : Request) : WorkerStep i k [] (r.abandon k) := by
  cases r with
  | taking n t => exact rebell_step hk (Take.abandon_slot t k.handoff)
  | _ => exact ⟨hk, rfl, fun sh => .rest _ _⟩

theorem afterTake_step (n : Nat) (r : Handoff Entry × Progress Take (Taken Entry))
    (hr : (∃ t, r.2 = .waiting t ∧ r.1.slot = k.handoff.slot) ∨
      (∃ e, k.handoff.slot = some e ∧ r.2 = .done (.item e) ∧ r.1.slot = none) ∨
      ((r.2 = .done .timedOut ∨ r.2 = .done .closed) ∧ r.1.slot = k.handoff.slot)) :
    WorkerStep i k (Request.returns i (Request.afterTake k n r.1 r.2).2.2)
      (Request.afterTake k n r.1 r.2).1 := by
  obtain ⟨h, p⟩ := r
  rcases hr with ⟨t, rfl, hslot⟩ | ⟨e, he, rfl, hslot⟩ | ⟨rfl | rfl, hslot⟩
  · exact rebell_step hk hslot
  · refine ⟨⟨hk.unspawned, hk.own⟩, rfl, fun sh => ?_⟩
    change Work i sh _ [.returned i e] sh ⟨k.consumer.stage, h.slot⟩
    rw [he, show h.slot = none from hslot]
    exact .take _ _ _
  · exact rebell_step hk hslot
  · exact rebell_step hk hslot

/-- A request spawns the loop, or takes what is in the slot and returns it, or leaves
the station as it is. -/
theorem request_step (now : Nat) (r : Request) :
    WorkerStep i k (Request.returns i (r.step now k).2.2) (r.step now k).1 := by
  cases r with
  | fresh => exact spawn_step hk
  | between n =>
    simp only [Request.step]
    split
    · exact afterTake_step hk n _ (Handoff.lookInSlot_slot k.handoff now _)
    · exact ⟨hk, rfl, fun sh => .rest _ _⟩
  | taking n t => exact afterTake_step hk n _ (Take.resume_slot t k.handoff now)

theorem shutdown_step (now : Nat) (tokens : Cancellations) (store : Store) (s : Shutdown) :
    WorkerStep i k [] (s.step now tokens store k).worker ∧
      ∀ q, (s.step now tokens store k).store.shelf q = store.shelf q := by
  cases s with
  | fresh =>
    simp only [Shutdown.step]
    split
    · exact ⟨⟨hk, rfl, fun sh => .rest _ _⟩, fun _ => rfl⟩
    · exact ⟨⟨⟨by simp, hk.own⟩, rfl, fun sh => .rest _ _⟩, fun _ => rfl⟩
  | joining d =>
    simp only [Shutdown.step]
    split
    · exact ⟨⟨hk, rfl, fun sh => .rest _ _⟩, fun _ => rfl⟩
    · exact ⟨⟨hk, rfl, fun sh => .rest _ _⟩, fun _ => rfl⟩
    · exact ⟨⟨hk, rfl, fun sh => .rest _ _⟩, fun _ => rfl⟩
    · exact ⟨⟨hk, rfl, fun sh => .rest _ _⟩, fun _ => rfl⟩
    · next c hc =>
      split
      · exact ⟨ending_step hk (Or.inr rfl) (by rw [hc]; rfl), fun _ => rfl⟩
      · exact ⟨⟨hk, rfl, fun sh => .rest _ _⟩, fun _ => rfl⟩
  | closing => exact ⟨⟨⟨by simp [Shutdown.step], hk.own⟩, rfl, fun sh => .rest _ _⟩, fun _ => rfl⟩

end

end TaskRelay
