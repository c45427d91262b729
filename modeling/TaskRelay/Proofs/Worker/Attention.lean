import TaskRelay.Proofs.Handoff.Slot
import TaskRelay.Proofs.Handoff.Wakeup
import TaskRelay.Proofs.World.Signals

/-!
# A loop and requests at one handoff

What a step of a consumer loop or of a request does to the handoff of their worker. Neither
upsets the takers: each keeps a place of its own, and while an entry lies in the open handoff
one of them was called.
-/

set_option autoImplicit false

namespace TaskRelay

inductive Consumer.Lays (h : Handoff Entry) (stopped : Bool) : Consumer → Handoff Entry → Prop
  | rests (c : Consumer) : Lays h stopped c h
  | offers (e : Entry) (rest : List Entry) :
      Lays h stopped (.holding (e :: rest)) (h.beginOffer e stopped).1
  | resumes (o : Offer) (id : String) (rest : List Entry) :
      Lays h stopped (.offering o id rest) (o.resume h stopped).1

section
variable {h h' : Handoff Entry} {stopped : Bool} {c : Consumer}

theorem Consumer.afterRead_handoff (cfg : StreamSettings) (now : Nat) (store : Store)
    (p : Progress GroupRead ReadResult) : (afterRead cfg now store h p).handoff = h := by
  rcases p with r | r | ⟨e | ⟨_ | ⟨e, es⟩⟩⟩ <;> rfl

theorem Consumer.afterOffer_handoff (store : Store) (id : String) (rest : List Entry)
    (p : Progress Offer (Offered Entry)) : (afterOffer store h id rest p).handoff = h := by
  rcases p with o | o | ⟨_ | e⟩ <;> rfl

theorem Consumer.step_lays (cfg : StreamSettings) (view : StoreView) (now : Nat) (stopped : Bool)
    (store : Store) (h : Handoff Entry) (c : Consumer) :
    c.Lays h stopped (c.step cfg view now stopped store h).handoff := by
  cases c with
  | spawned => exact .rests _
  | top =>
    simp only [step]
    split
    · exact .rests _
    · split
      · exact .rests _
      · rw [afterRead_handoff]
        exact .rests _
  | reading r =>
    simp only [step]
    split
    · exact .rests _
    · rw [afterRead_handoff]
      exact .rests _
  | pausing d =>
    simp only [step]
    split
    · exact .rests _
    · split <;> exact .rests _
  | holding batch =>
    cases batch with
    | nil => exact .rests _
    | cons e rest =>
      simp only [step, afterOffer_handoff]
      exact .offers e rest
  | offering o id rest =>
    simp only [step, afterOffer_handoff]
    exact .resumes o id rest
  | acking id rest => exact .rests _
  | requeueing batch => cases batch <;> exact .rests _
  | adding a id rest =>
    simp only [step]
    split <;> exact .rests _

theorem Offer.resume_offered (o : Offer) (h : Handoff Entry) (stopped : Bool) :
    (o.resume h stopped).1.offered = h.offered := by
  have watch (h : Handoff Entry) : (h.watchSlot false).1.offered = h.offered := by
    simp only [Handoff.watchSlot]
    split <;> rfl
  cases stopped with
  | true =>
    simp only [resume, if_true, Handoff.reclaim]
    split <;> rfl
  | false =>
    simp only [resume, Bool.false_eq_true, if_false]
    split
    · exact watch _
    · rfl

theorem Consumer.Lays.attends (hl : c.Lays h stopped h') {ts : Table Nat Take}
    (ha : h.Attends ts) : h'.Attends ts := by
  cases hl with
  | rests => exact ha
  | offers e rest => exact ha.offered e stopped
  | resumes o id rest =>
    refine ha.calm (o.resume_offered h stopped) (fun hc => o.resume_closed h stopped ▸ hc) ?_
    intro hs
    rcases o.resume_slot h stopped with ⟨_, -, he⟩ | ⟨-, -, he⟩ | ⟨_, -, -, he⟩
    · exact he ▸ hs
    · simp [he] at hs
    · simp [he] at hs

/-- A loop that was not told to stop leaves an entry in the slot alone. -/
theorem Consumer.Lays.slot (hl : c.Lays h false h') (hf : Station.Fit ⟨c.stage, h.slot⟩)
    {e : Entry} (hs : h.slot = some e) : h'.slot = some e := by
  cases hl with
  | rests => exact hs
  | offers e' rest =>
    have hnone : h.slot = none := hf
    rw [hs] at hnone
    cases hnone
  | resumes o id rest =>
    rcases o.resume_slot h false with ⟨_, -, he⟩ | ⟨hnone, -⟩ | ⟨e', -, hback, -⟩
    · exact he.trans hs
    · rw [hs] at hnone
      cases hnone
    · exact absurd hback (World.resume_unstopped o h e')

end

namespace Request

def take? : Request → Option Take
  | .taking _ t => some t
  | _ => none

def ahead : Progress Request (Except WorkerError Entry) → Option Take
  | .running r | .waiting r => r.take?
  | .done _ => none

def leave (h : Handoff Entry) : Request → Handoff Entry
  | .taking _ t => t.abandon h
  | _ => h

theorem leave_empty (r : Request) : r.leave .empty = .empty := by
  cases r <;> rfl

theorem leave_slot (r : Request) (h : Handoff Entry) : (r.leave h).slot = h.slot := by
  cases r <;> rfl

theorem abandon_handoff (r : Request) (k : Worker) :
    (r.abandon k).handoff = r.leave k.handoff := by
  cases r <;> rfl

theorem spawn_handoff (k : Worker) : k.spawn.handoff = k.handoff := by
  unfold Worker.spawn
  split <;> rfl

section
variable {id : Nat} {k : Worker} {ts : Table Nat Take}

def Attends (id : Nat) (ts : Table Nat Take)
    (s : Worker × List Note × Progress Request (Except WorkerError Entry)) : Prop :=
  ∃ ts', (∀ id', id' ≠ id → Table.get? id' ts' = Table.get? id' ts) ∧
    Table.get? id ts' = ahead s.2.2 ∧ s.1.handoff.Attends ts'

theorem afterTake_attends (n : Nat) {h : Handoff Entry} {p : Progress Take (Taken Entry)}
    (ha : h.Attends (Take.after id ts p)) : Attends id ts (afterTake k n h p) := by
  refine ⟨Take.after id ts p, fun id' hne => Take.after_other hne ts p, ?_, ?_⟩
  · rcases p with t | t | ⟨e | _ | _⟩
    · exact Table.get?_insert_self id t ts
    · exact Table.get?_insert_self id t ts
    all_goals exact Table.get?_erase_self id ts
  · rcases p with t | t | ⟨e | _ | _⟩ <;> exact ha

theorem step_attends {r : Request} (ha : k.handoff.Attends ts) (hr : Table.get? id ts = r.take?)
    (now : Nat) : Attends id ts (r.step now k) := by
  cases r with
  | fresh => exact ⟨ts, fun _ _ => rfl, hr, (spawn_handoff k).symm ▸ ha⟩
  | between n =>
    simp only [step]
    split
    · have hseats : Seats k.handoff.offered (Table.erase id ts) :=
        ha.seats.congr (get?_erase_absent hr)
      exact afterTake_attends n (Handoff.look_attends hseats now _)
    · exact ⟨ts, fun _ _ => rfl, hr, ha⟩
  | taking n t => exact afterTake_attends n (ha.resume hr now)

theorem leave_attends {r : Request} {h : Handoff Entry} (ha : h.Attends ts)
    (hr : Table.get? id ts = r.take?) : (r.leave h).Attends (Table.erase id ts) := by
  cases r with
  | taking n t => exact ha.gone hr
  | _ => exact ha.congr (get?_erase_absent hr)

end

end Request

end TaskRelay
