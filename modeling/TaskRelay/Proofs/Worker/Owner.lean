import TaskRelay.Proofs.Store.Number
import TaskRelay.Proofs.Worker.Work

/-!
# In whose name a loop reads

A consumer loop reads in the name of its own consumer, also when it goes on with a read that
was suspended. So whatever it is handed is pending under that name.
-/

set_option autoImplicit false

namespace TaskRelay

def Shelf.Owes (sh : Shelf) (consumer : String) (es : List Entry) : Prop :=
  ∀ n, entryId n ∈ es.map Entry.id → Table.get? n sh.pending = some ⟨consumer, 1⟩

theorem Shelf.Hands.owes {sh sh' : Shelf} {consumer : String} {bs : List (Nat × Fields)}
    (h : sh.Hands consumer bs sh') : sh'.Owes consumer (bs.map numbered) := by
  intro n hn
  rw [h.pending_after, if_pos (entryId_mem.mp hn)]

def Reads (q : Queue) (consumer : String) : Store × Progress GroupRead ReadResult → Prop
  | (_, .running r) | (_, .waiting r) => r.consumer = consumer
  | (s, .done (.ok es)) => (s.shelf q).Owes consumer es
  | (_, .done (.error _)) => True

theorem look_reads (s : Store) (now : Nat) (r : GroupRead) :
    Reads r.queue r.consumer (s.look now r) := by
  unfold Store.look
  split
  · trivial
  · next s' es h =>
    obtain ⟨⟨bs, hb, rfl⟩, -⟩ := Store.deliver_shelf (q := r.queue) h
    exact hb.owes
  · split
    · exact nofun
    · exact rfl

theorem beginRead_reads (s : Store) (now : Nat) (q : Queue) (consumer : String)
    (count block : Nat) :
    Reads q consumer (s.beginRead now q.stream q.group consumer count block) := by
  unfold Store.beginRead
  split
  · trivial
  · exact look_reads s now ⟨q.stream, q.group, consumer, count, now + block, s.announcements⟩

theorem resume_reads (r : GroupRead) (now : Nat) (s : Store) :
    Reads r.queue r.consumer (r.resume now s) := by
  unfold GroupRead.resume
  split
  · exact look_reads s now r
  · split
    · exact nofun
    · exact rfl

def Consumer.Named (cfg : StreamSettings) : Consumer → Prop
  | .reading r => r.consumer = cfg.consumer
  | _ => True

def LoopState.Named (cfg : StreamSettings) : LoopState → Prop
  | .active c => c.Named cfg
  | _ => True

section
variable {cfg : StreamSettings}

structure ConsumerStep.Read (cfg : StreamSettings) (s : ConsumerStep) : Prop where
  named : s.state.Named cfg
  owes : ∀ es, s.state = .active (.holding es) →
    (s.store.shelf cfg.queue).Owes cfg.consumer es

theorem afterRead_read {now : Nat} {handoff : Handoff Entry} {s : Store}
    {p : Progress GroupRead ReadResult} (h : Reads cfg.queue cfg.consumer (s, p)) :
    (Consumer.afterRead cfg now s handoff p).Read cfg := by
  rcases p with r | r | ⟨e | ⟨_ | ⟨e, es⟩⟩⟩
  · exact ⟨h, nofun⟩
  · exact ⟨h, nofun⟩
  · exact ⟨trivial, nofun⟩
  · exact ⟨trivial, nofun⟩
  · refine ⟨trivial, ?_⟩
    rintro es' ⟨⟩
    exact h

/-- A step of a loop that holds no entries leaves it in the name of its consumer, and so are
the entries it has been handed. -/
theorem step_read {c : Consumer} (hown : c.Own cfg) (hnamed : c.Named cfg) (view : StoreView)
    (now : Nat) (stopped : Bool) (store : Store) (handoff : Handoff Entry)
    (hc : c = .top ∨ ∃ r, c = .reading r) :
    (c.step cfg view now stopped store handoff).Read cfg := by
  rcases hc with rfl | ⟨r, rfl⟩
  · simp only [Consumer.step]
    split
    · exact ⟨trivial, by rintro _ ⟨⟩⟩
    · split
      · exact ⟨trivial, by rintro _ ⟨⟩⟩
      · exact afterRead_read (beginRead_reads store now cfg.queue cfg.consumer _ _)
  · simp only [Consumer.step]
    split
    · exact ⟨trivial, by rintro _ ⟨⟩⟩
    · have hr := resume_reads r now store
      rw [show r.queue = cfg.queue from hown, show r.consumer = cfg.consumer from hnamed] at hr
      exact afterRead_read hr

theorem afterOffer_named (store : Store) (handoff : Handoff Entry) (id : String)
    (rest : List Entry) (p : Progress Offer (Offered Entry)) :
    (Consumer.afterOffer store handoff id rest p).state.Named cfg := by
  rcases p with o | o | ⟨_ | e⟩ <;> trivial

theorem step_named {c : Consumer} (hown : c.Own cfg) (hnamed : c.Named cfg) (view : StoreView)
    (now : Nat) (stopped : Bool) (store : Store) (handoff : Handoff Entry) :
    (c.step cfg view now stopped store handoff).state.Named cfg := by
  cases c with
  | top => exact (step_read hown hnamed view now stopped store handoff (Or.inl rfl)).named
  | reading r =>
    exact (step_read hown hnamed view now stopped store handoff (Or.inr ⟨r, rfl⟩)).named
  | spawned => trivial
  | pausing d =>
    simp only [Consumer.step]
    split
    · trivial
    · split <;> trivial
  | holding es =>
    cases es with
    | nil => trivial
    | cons e rest => exact afterOffer_named ..
  | offering o id rest => exact afterOffer_named ..
  | acking id rest => trivial
  | requeueing es => cases es <;> trivial
  | adding a id rest =>
    simp only [Consumer.step]
    split <;> trivial

end

end TaskRelay
