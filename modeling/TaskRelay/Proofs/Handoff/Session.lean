import TaskRelay.Handoff.Basic
import TaskRelay.Table

/-!
# Sessions of one handoff

A handoff with the one producer that offers and the takers that come and go, and
an account of what everybody was given. A move lets one of them do one
uninterrupted action, so a list of moves is a run under one interleaving. The
producer begins an offer only after the one before has returned.

A handoff never looks at its items: a run commutes with any change of the items.
The items of a run may therefore be numbered without changing the run.
-/

set_option autoImplicit false

namespace TaskRelay

variable {α β : Type}

structure Session (α : Type) where
  handoff : Handoff α
  now : Nat
  stopped : Bool
  offering : Option (α × Offer)
  taking : Table Nat Take
  next : Nat
  offers : List (α × Offered α)
  taken : List (Nat × α)

namespace Session

inductive Move (α : Type) where
  | offer (a : α)
  | watch
  | take (wait : Nat)
  | look (t : Nat)
  | drop (t : Nat)
  | stop
  | close
  | wait (millis : Nat)

def start : Session α := ⟨.empty, 0, false, none, [], 0, [], []⟩

def afterOffer (s : Session α) (a : α) :
    Handoff α × Progress Offer (Offered α) → Session α
  | (h, .running o) | (h, .waiting o) => { s with handoff := h, offering := some (a, o) }
  | (h, .done r) => { s with handoff := h, offering := none, offers := s.offers ++ [(a, r)] }

def afterTake (s : Session α) (t : Nat) : Handoff α × Progress Take (Taken α) → Session α
  | (h, .running k) | (h, .waiting k) =>
    { s with handoff := h, taking := Table.insert t k s.taking }
  | (h, .done (.item a)) =>
    { s with handoff := h, taking := Table.erase t s.taking, taken := s.taken ++ [(t, a)] }
  | (h, .done _) => { s with handoff := h, taking := Table.erase t s.taking }

def move (s : Session α) : Move α → Session α
  | .offer a =>
    match s.offering with
    | none => s.afterOffer a (s.handoff.beginOffer a s.stopped)
    | some _ => s
  | .watch =>
    match s.offering with
    | none => s
    | some (a, o) => s.afterOffer a (o.resume s.handoff s.stopped)
  | .take wait =>
    { s with next := s.next + 1 }.afterTake s.next (s.handoff.beginTake s.now wait)
  | .look t =>
    match Table.get? t s.taking with
    | none => s
    | some k => s.afterTake t (k.resume s.handoff s.now)
  | .drop t =>
    match Table.get? t s.taking with
    | none => s
    | some k => { s with handoff := k.abandon s.handoff, taking := Table.erase t s.taking }
  | .stop => { s with stopped := true }
  | .close => { s with handoff := s.handoff.close }
  | .wait n => { s with now := s.now + n }

def run : List (Move α) → Session α → Session α
  | [], s => s
  | m :: ms, s => run ms (s.move m)

def items (s : Session α) : List α := s.taken.map Prod.snd

def accepted (s : Session α) : List α :=
  s.offers.filterMap fun p =>
    match p.2 with
    | .accepted => some p.1
    | .stopped _ => none

def unreported (s : Session α) : List α :=
  match s.offering with
  | some (a, _) => if s.handoff.slot.isNone then [a] else []
  | none => []

def offered (s : Session α) : List α :=
  s.offers.map Prod.fst ++ (s.offering.map Prod.fst).toList

end Session

def Handoff.map (f : α → β) (h : Handoff α) : Handoff β :=
  ⟨h.slot.map f, h.offered, h.taken, h.closed⟩

def Offered.map (f : α → β) : Offered α → Offered β
  | .accepted => .accepted
  | .stopped a => .stopped (f a)

def Taken.map (f : α → β) : Taken α → Taken β
  | .item a => .item (f a)
  | .timedOut => .timedOut
  | .closed => .closed

theorem watchSlot_map (f : α → β) (h : Handoff α) (stopped : Bool) :
    (h.map f).watchSlot stopped =
      ((h.watchSlot stopped).1.map f, (h.watchSlot stopped).2.within id (Offered.map f)) := by
  obtain ⟨slot, offered, taken, closed⟩ := h
  cases slot <;> cases stopped <;> rfl

theorem beginOffer_map (f : α → β) (h : Handoff α) (a : α) (stopped : Bool) :
    (h.map f).beginOffer (f a) stopped =
      ((h.beginOffer a stopped).1.map f, (h.beginOffer a stopped).2.within id (Offered.map f)) :=
  watchSlot_map f { h with slot := some a, offered := h.offered.ring } stopped

theorem offer_resume_map (f : α → β) (o : Offer) (h : Handoff α) (stopped : Bool) :
    o.resume (h.map f) stopped =
      ((o.resume h stopped).1.map f, (o.resume h stopped).2.within id (Offered.map f)) := by
  cases stopped with
  | true =>
    obtain ⟨slot, offered, taken, closed⟩ := h
    cases slot <;> rfl
  | false =>
    by_cases hc : h.taken.isCalled o.ticket = true
    · have hw := watchSlot_map f { h with taken := h.taken.answer o.ticket } false
      have hc' : (h.map f).taken.isCalled o.ticket = true := hc
      simp only [Offer.resume, hc, hc', if_true, Bool.false_eq_true, if_false]
      exact hw
    · have hc' : ¬(h.map f).taken.isCalled o.ticket = true := hc
      simp [Offer.resume, hc, hc', Progress.within]

theorem lookInSlot_map (f : α → β) (h : Handoff α) (now deadline : Nat) :
    (h.map f).lookInSlot now deadline =
      ((h.lookInSlot now deadline).1.map f,
        (h.lookInSlot now deadline).2.within id (Taken.map f)) := by
  obtain ⟨slot, offered, taken, closed⟩ := h
  cases closed with
  | true => rfl
  | false =>
    cases slot with
    | some a => rfl
    | none =>
      by_cases hd : deadline ≤ now <;>
        simp [Handoff.lookInSlot, Handoff.map, hd, Progress.within, Taken.map]

theorem take_resume_map (f : α → β) (t : Take) (h : Handoff α) (now : Nat) :
    t.resume (h.map f) now =
      ((t.resume h now).1.map f, (t.resume h now).2.within id (Taken.map f)) := by
  by_cases hc : h.closed = true
  · simp [Take.resume, hc, Progress.within, Taken.map, Take.abandon, Handoff.map]
  have hc' : ¬(h.map f).closed = true := hc
  by_cases hw : h.offered.isCalled t.ticket = true
  · have hl := lookInSlot_map f { h with offered := h.offered.answer t.ticket } now t.deadline
    have hw' : (h.map f).offered.isCalled t.ticket = true := hw
    rw [Take.resume, Take.resume, if_neg hc', if_pos hw', if_neg hc, if_pos hw]
    exact hl
  have hw' : ¬(h.map f).offered.isCalled t.ticket = true := hw
  by_cases hd : t.deadline ≤ now
  · simp [Take.resume, hc, hw, hd, Progress.within, Taken.map, Take.abandon, Handoff.map]
  · simp [Take.resume, hc, hc', hw, hw', hd, Progress.within]

namespace Session

def Move.map (f : α → β) : Move α → Move β
  | .offer a => .offer (f a)
  | .watch => .watch
  | .take n => .take n
  | .look t => .look t
  | .drop t => .drop t
  | .stop => .stop
  | .close => .close
  | .wait n => .wait n

def map (f : α → β) (s : Session α) : Session β where
  handoff := s.handoff.map f
  now := s.now
  stopped := s.stopped
  offering := s.offering.map (Prod.map f id)
  taking := s.taking
  next := s.next
  offers := s.offers.map (Prod.map f (Offered.map f))
  taken := s.taken.map (Prod.map id f)

theorem afterOffer_map (f : α → β) (s : Session α) (a : α) (h : Handoff α)
    (p : Progress Offer (Offered α)) :
    (s.map f).afterOffer (f a) (h.map f, p.within id (Offered.map f)) =
      (s.afterOffer a (h, p)).map f := by
  cases p <;> simp [afterOffer, map, Progress.within]

theorem afterTake_map (f : α → β) (s : Session α) (t : Nat) (h : Handoff α)
    (p : Progress Take (Taken α)) :
    (s.map f).afterTake t (h.map f, p.within id (Taken.map f)) =
      (s.afterTake t (h, p)).map f := by
  cases p with
  | running k => rfl
  | waiting k => rfl
  | done r => cases r <;> simp [afterTake, map, Progress.within, Taken.map]

theorem move_map (f : α → β) (s : Session α) (m : Move α) :
    (s.map f).move (m.map f) = (s.move m).map f := by
  cases m with
  | offer a =>
    cases ho : s.offering with
    | none =>
      have ho' : (s.map f).offering = none := by simp [map, ho]
      simp only [Move.map, move, ho, ho']
      exact (congrArg _ (beginOffer_map f s.handoff a s.stopped)).trans
        (afterOffer_map f s a _ _)
    | some p =>
      have ho' : (s.map f).offering = some (f p.1, p.2) := by simp [map, ho, Prod.map]
      simp only [Move.map, move, ho, ho']
  | watch =>
    cases ho : s.offering with
    | none =>
      have ho' : (s.map f).offering = none := by simp [map, ho]
      simp only [Move.map, move, ho, ho']
    | some p =>
      have ho' : (s.map f).offering = some (f p.1, p.2) := by simp [map, ho, Prod.map]
      simp only [Move.map, move, ho, ho']
      exact (congrArg _ (offer_resume_map f p.2 s.handoff s.stopped)).trans
        (afterOffer_map f s p.1 _ _)
  | take wait =>
    simp only [Move.map, move]
    exact (congrArg _ (lookInSlot_map f s.handoff s.now (s.now + wait))).trans
      (afterTake_map f { s with next := s.next + 1 } s.next _ _)
  | look t =>
    cases ht : Table.get? t s.taking with
    | none =>
      have ht' : Table.get? t (s.map f).taking = none := ht
      simp only [Move.map, move, ht, ht']
    | some k =>
      have ht' : Table.get? t (s.map f).taking = some k := ht
      simp only [Move.map, move, ht, ht']
      exact (congrArg _ (take_resume_map f k s.handoff s.now)).trans (afterTake_map f s t _ _)
  | drop t =>
    cases ht : Table.get? t s.taking with
    | none =>
      have ht' : Table.get? t (s.map f).taking = none := ht
      simp only [Move.map, move, ht, ht']
    | some k =>
      have ht' : Table.get? t (s.map f).taking = some k := ht
      simp only [Move.map, move, ht, ht']
      rfl
  | stop => rfl
  | close => rfl
  | wait n => rfl

/-- A run with other items is the run with its items changed. -/
theorem run_map (f : α → β) (ms : List (Move α)) (s : Session α) :
    run (ms.map (Move.map f)) (s.map f) = (run ms s).map f := by
  induction ms generalizing s with
  | nil => rfl
  | cons m ms ih =>
    simp only [List.map_cons, run]
    rw [move_map, ih]

def numbered : Nat → List (Move α) → List (Move (Nat × α))
  | _, [] => []
  | n, m :: ms => m.map (Prod.mk n) :: numbered (n + 1) ms

theorem numbered_forget (n : Nat) (ms : List (Move α)) :
    (numbered n ms).map (Move.map Prod.snd) = ms := by
  induction ms generalizing n with
  | nil => rfl
  | cons m ms ih =>
    rw [numbered, List.map_cons, ih]
    cases m <;> rfl

/-- Numbers on the items are not seen by the run. -/
theorem run_numbered (ms : List (Move α)) :
    (run (numbered 0 ms) start).map Prod.snd = run ms start := by
  have h := run_map Prod.snd (numbered 0 ms) start
  rw [numbered_forget] at h
  exact h.symm

end Session

end TaskRelay
