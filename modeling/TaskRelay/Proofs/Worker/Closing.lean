import TaskRelay.Proofs.Worker.Life
import TaskRelay.Proofs.Worker.Work

/-!
# Only a shutdown closes

Loops, requests, publications and additions leave a handoff and a store open or closed as
they are. So all that a call learns from a closed handoff, it learns from a shutdown.
-/

set_option autoImplicit false

namespace TaskRelay

section
variable {α : Type} (h : Handoff α)

namespace Handoff

@[simp]
theorem reclaim_closed : h.reclaim.1.closed = h.closed := by
  unfold reclaim
  split <;> rfl

@[simp]
theorem watchSlot_closed (stopped : Bool) : (h.watchSlot stopped).1.closed = h.closed := by
  unfold watchSlot
  dsimp only
  split
  · rfl
  · split
    · exact reclaim_closed _
    · rfl

@[simp]
theorem beginOffer_closed (a : α) (stopped : Bool) :
    (h.beginOffer a stopped).1.closed = h.closed :=
  watchSlot_closed _ stopped

@[simp]
theorem lookInSlot_closed (now deadline : Nat) :
    (h.lookInSlot now deadline).1.closed = h.closed := by
  unfold lookInSlot
  dsimp only
  split
  · rfl
  · split
    · rfl
    · split <;> rfl

end Handoff

@[simp]
theorem Offer.resume_closed (o : Offer) (stopped : Bool) :
    (o.resume h stopped).1.closed = h.closed := by
  unfold resume
  split
  · exact Handoff.reclaim_closed h
  · split
    · exact Handoff.watchSlot_closed _ stopped
    · rfl

@[simp]
theorem Take.resume_closed (t : Take) (now : Nat) : (t.resume h now).1.closed = h.closed := by
  unfold resume
  split
  · rfl
  · split
    · exact Handoff.lookInSlot_closed _ now t.deadline
    · split <;> rfl

/-- A take ends closed if and only if the handoff is closed. -/
theorem Handoff.lookInSlot_ends (now deadline : Nat) :
    (h.lookInSlot now deadline).2 = .done .closed ↔ h.closed = true := by
  unfold lookInSlot
  dsimp only
  split
  · next hc => simp [hc]
  · next hc =>
    split
    · simp [hc]
    · split <;> simp [hc]

theorem Take.resume_ends (t : Take) (now : Nat) :
    (t.resume h now).2 = .done .closed ↔ h.closed = true := by
  unfold resume
  split
  · next hc => simp [hc]
  · next hc =>
    split
    · simpa [hc] using Handoff.lookInSlot_ends { h with offered := h.offered.answer t.ticket } now
        t.deadline
    · split <;> simp [hc]

end

section
variable (s : Store)

namespace Store

theorem deliver_closed {stream group consumer : String} {count : Nat} {s' : Store}
    {es : List Entry} (h : s.deliver stream group consumer count = .ok (some (s', es))) :
    s'.closed = s.closed := by
  unfold deliver at h
  split at h
  · cases h
  · split at h
    · cases h
    · split at h
      · cases h
      · cases h
        rfl

@[simp]
theorem look_closed (now : Nat) (r : GroupRead) : (s.look now r).1.closed = s.closed := by
  unfold look
  split
  · rfl
  · next h => exact deliver_closed s h
  · split <;> rfl

@[simp]
theorem beginRead_closed (now : Nat) (stream group consumer : String) (count block : Nat) :
    (s.beginRead now stream group consumer count block).1.closed = s.closed := by
  unfold beginRead
  split
  · rfl
  · exact look_closed s now _

@[simp]
theorem ack_closed (stream group id : String) : (s.ack stream group id).1.closed = s.closed := by
  unfold ack
  split
  · rfl
  · split
    · rfl
    · split <;> rfl

theorem createGroup_closed {stream group : String} {s' : Store}
    (h : s.createGroup stream group = .ok s') : s'.closed = s.closed := by
  unfold createGroup at h
  split at h
  · cases h
  · split at h <;>
      · cases h
        rfl

end Store

@[simp]
theorem GroupRead.resume_closed (r : GroupRead) (now : Nat) :
    (r.resume now s).1.closed = s.closed := by
  unfold resume
  split
  · exact s.look_closed now r
  · split <;> rfl

@[simp]
theorem Addition.resume_closed (a : Addition) (now : Nat) :
    (a.resume now s).1.closed = s.closed := by
  unfold resume
  split
  · rfl
  · split
    · next h =>
      unfold Store.append at h
      split at h
      · cases h
      · cases h
        rfl
    · rfl

@[simp]
theorem Publish.step_closed (p : Publish) (now : Nat) (k : Worker) :
    (p.step now k s).1.closed = s.closed := by
  cases p with
  | fresh task =>
    simp only [step]
    split <;> rfl
  | adding task a =>
    have h := a.resume_closed s now
    simp only [step]
    split <;> next he => rw [he] at h; exact h

end

structure ConsumerStep.Open (store : Store) (handoff : Handoff Entry) (s : ConsumerStep) : Prop where
  store : s.store.closed = store.closed
  handoff : s.handoff.closed = handoff.closed
  goes : s.state ≠ .active .spawned

theorem Consumer.exit_open (cfg : StreamSettings) (store : Store) (handoff : Handoff Entry) :
    (exit cfg store handoff).Open store handoff := ⟨rfl, rfl, nofun⟩

theorem Consumer.afterRead_open (cfg : StreamSettings) (now : Nat) {store s : Store}
    (hs : s.closed = store.closed) (h : Handoff Entry) (p : Progress GroupRead ReadResult) :
    (afterRead cfg now s h p).Open store h := by
  rcases p with r | r | ⟨e | ⟨_ | ⟨e, es⟩⟩⟩ <;> exact ⟨hs, rfl, nofun⟩

theorem Consumer.afterOffer_open (store : Store) {handoff h : Handoff Entry}
    (hh : h.closed = handoff.closed) (id : String) (rest : List Entry)
    (p : Progress Offer (Offered Entry)) :
    (afterOffer store h id rest p).Open store handoff := by
  rcases p with o | o | ⟨_ | e⟩ <;> exact ⟨rfl, hh, nofun⟩

theorem Consumer.step_open (cfg : StreamSettings) (view : StoreView) (now : Nat) (stopped : Bool)
    (store : Store) (handoff : Handoff Entry) (c : Consumer) :
    (c.step cfg view now stopped store handoff).Open store handoff := by
  cases c with
  | spawned => exact ⟨rfl, rfl, by rintro ⟨⟩⟩
  | top =>
    simp only [step]
    split
    · exact exit_open cfg store handoff
    · split
      · exact ⟨rfl, rfl, by rintro ⟨⟩⟩
      · exact afterRead_open cfg now (store.beginRead_closed ..) handoff _
  | reading r =>
    simp only [step]
    split
    · exact exit_open cfg store handoff
    · exact afterRead_open cfg now (r.resume_closed store now) handoff _
  | pausing d =>
    simp only [step]
    split
    · exact exit_open cfg store handoff
    · split <;> exact ⟨rfl, rfl, by rintro ⟨⟩⟩
  | holding batch =>
    cases batch with
    | nil => exact ⟨rfl, rfl, by rintro ⟨⟩⟩
    | cons e rest => exact afterOffer_open store (handoff.beginOffer_closed e stopped) e.id rest _
  | offering o id rest => exact afterOffer_open store (o.resume_closed handoff stopped) id rest _
  | acking id rest => exact ⟨store.ack_closed .., rfl, by rintro ⟨⟩⟩
  | requeueing batch =>
    cases batch with
    | nil => exact exit_open cfg store handoff
    | cons e rest => exact ⟨rfl, rfl, by rintro ⟨⟩⟩
  | adding a id rest =>
    have ha := a.resume_closed store now
    simp only [step]
    generalize a.resume now store = r at ha ⊢
    obtain ⟨s, a' | a' | x⟩ := r <;> exact ⟨ha, rfl, by rintro ⟨⟩⟩

inductive Request.Sees (k : Worker) : Request → Worker → Progress Request (Except WorkerError Entry) →
    Prop
  | spawns : Sees k .fresh k.spawn (.running (.between 0))
  | goes {r r' : Request} {k' : Worker} {p : Progress Request (Except WorkerError Entry)}
      (same : k'.phase = k.phase) (started : r ≠ .fresh) (opened : k.handoff.closed = false)
      (on : p = .running r' ∨ p = .waiting r') : Sees k r k' p
  | ends {r : Request} {k' : Worker} {x : Except WorkerError Entry} (same : k'.phase = k.phase)
      (started : r ≠ .fresh)
      (reason : x = .error .queueHasBeenClosed → k.handoff.closed = true)
      (refused : k.handoff.closed = true → r = .between 0 → x = .error .queueHasBeenClosed)
      (nothing : k.handoff.closed = true → ∀ e, x ≠ .ok e) : Sees k r k' (.done x)

theorem Request.afterTake_sees {k : Worker} {r : Request} (hr : r ≠ .fresh) (n : Nat)
    {h : Handoff Entry} {p : Progress Take (Taken Entry)} (hh : h.closed = k.handoff.closed)
    (hp : p = .done .closed ↔ k.handoff.closed = true) :
    Sees k r (afterTake k n h p).1 (afterTake k n h p).2.2 := by
  have same : Worker.phase { k with handoff := h } = k.phase := by simp [Worker.phase, hh]
  have opened (hn : p ≠ .done .closed) : k.handoff.closed = false :=
    Bool.eq_false_iff.mpr fun hc => hn (hp.mpr hc)
  rcases p with t | t | ⟨e | _ | _⟩
  · exact .goes same hr (opened nofun) (Or.inr rfl)
  · exact .goes same hr (opened nofun) (Or.inr rfl)
  · have hn : k.handoff.closed ≠ true := by rw [opened nofun]; decide
    exact .ends same hr nofun (fun hc => absurd hc hn) fun hc => absurd hc hn
  · exact .goes same hr (opened nofun) (Or.inl rfl)
  · exact .ends same hr (fun _ => hp.mp rfl) (fun _ _ => rfl) fun _ => nofun

theorem Request.step_sees (now : Nat) (k : Worker) (r : Request) :
    Sees k r (r.step now k).1 (r.step now k).2.2 := by
  cases r with
  | fresh => exact .spawns
  | between n =>
    simp only [step]
    split
    · exact afterTake_sees (by simp) n (k.handoff.lookInSlot_closed now _)
        (k.handoff.lookInSlot_ends now _)
    · next hn =>
      refine .ends rfl (by rintro ⟨⟩) (by rintro ⟨⟩) (fun _ h0 => ?_) fun _ _ => by rintro ⟨⟩
      cases h0
      exact absurd (by decide) hn
  | taking n t =>
    exact afterTake_sees (by simp) n (t.resume_closed k.handoff now) (t.resume_ends k.handoff now)

end TaskRelay
