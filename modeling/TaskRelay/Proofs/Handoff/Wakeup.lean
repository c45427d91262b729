import Mathlib.Data.List.Nodup
import TaskRelay.Proofs.Handoff.Session

/-!
# No wake-up is lost

Every suspended take has a place of its own at the bell of the offers, and the
producer has the only place at the other bell. While an item lies in an open handoff
somebody who waits for one was called: a taker called leaves with the item or hands the
call on. So an item never lies in the slot with all takers asleep, and a producer whose
item was taken is called.
-/

set_option autoImplicit false

namespace TaskRelay

namespace Bell

def places (b : Bell) : List Nat := b.waiting ++ b.called

theorem ring_places (b : Bell) : b.ring.places.Perm b.places := by
  unfold ring places
  split
  · exact List.Perm.refl _
  · next t ts h =>
    rw [h, List.cons_append, ← List.append_assoc]
    exact List.perm_append_singleton _ _

theorem ring_next (b : Bell) : b.ring.next = b.next := by
  unfold ring
  split <;> rfl

/-- A ring calls somebody if anybody waits to be called. -/
theorem ring_called (b : Bell) : b.ring.waiting ≠ [] → b.ring.called ≠ [] := by
  unfold ring
  split
  · next h => exact fun hw => absurd h hw
  · simp

theorem join_places (b : Bell) : b.join.1.places.Perm (b.next :: b.places) := by
  have h : b.join.1.places = b.waiting ++ b.next :: b.called := by simp [join, places]
  rw [h]
  exact List.perm_middle

theorem answer_places {b : Bell} (hb : b.places.Nodup) {t : Nat} (ht : b.isCalled t = true) :
    (b.answer t).places = b.places.erase t := by
  have hc : t ∈ b.called := by simpa [isCalled] using ht
  have hw : t ∉ b.waiting := fun hw => (List.nodup_append.mp hb).2.2 t hw t hc rfl
  exact (List.erase_append_right _ hw).symm

theorem leave_places {b : Bell} (hb : b.places.Nodup) (t : Nat) :
    (b.leave t).places.Perm (b.places.erase t) := by
  unfold leave
  split
  · next ht =>
    rw [← answer_places hb ht]
    exact ring_places _
  · next ht =>
    have hc : t ∉ b.called := by simpa [isCalled] using ht
    by_cases hw : t ∈ b.waiting
    · rw [places, places, List.erase_append_left _ hw]
    · have hp : t ∉ b.places := by simp [places, hw, hc]
      rw [List.erase_of_not_mem hp]
      change (b.waiting.erase t ++ b.called).Perm b.places
      rw [List.erase_of_not_mem hw]
      exact List.Perm.refl _

theorem leave_next (b : Bell) (t : Nat) : (b.leave t).next = b.next := by
  unfold leave
  split
  · exact ring_next _
  · rfl

def Alert (b : Bell) : Prop := b.waiting ≠ [] → b.called ≠ []

theorem leave_alert {b : Bell} (hb : b.Alert) (t : Nat) : (b.leave t).Alert := by
  unfold leave
  split
  · exact ring_called _
  · intro hw
    apply hb
    rintro hn
    simp [hn] at hw

end Bell

structure Seats (b : Bell) (ts : Table Nat Take) : Prop where
  distinct : b.places.Nodup
  issued : ∀ p ∈ b.places, p < b.next
  seated : ∀ t k, Table.get? t ts = some k → k.ticket ∈ b.places
  filled : ∀ p ∈ b.places, ∃ t k, Table.get? t ts = some k ∧ k.ticket = p
  own : ∀ t k t' k', Table.get? t ts = some k → Table.get? t' ts = some k' →
    k.ticket = k'.ticket → t = t'

namespace Seats

variable {b b' : Bell} {ts ts' : Table Nat Take}

theorem congr (h : Seats b ts) (ht : ∀ t, Table.get? t ts' = Table.get? t ts) : Seats b ts' := by
  refine ⟨h.distinct, h.issued, fun t k hk => h.seated t k (ht t ▸ hk), ?_, ?_⟩
  · intro p hp
    obtain ⟨t, k, hk, he⟩ := h.filled p hp
    exact ⟨t, k, (ht t).trans hk, he⟩
  · intro t k t' k' hk hk'
    exact h.own t k t' k' (ht t ▸ hk) (ht t' ▸ hk')

theorem perm (h : Seats b ts) (hp : b'.places.Perm b.places) (hn : b'.next = b.next) :
    Seats b' ts :=
  ⟨hp.nodup_iff.mpr h.distinct, fun p hm => hn ▸ h.issued p (hp.mem_iff.mp hm),
    fun t k hk => hp.mem_iff.mpr (h.seated t k hk), fun p hm => h.filled p (hp.mem_iff.mp hm),
    h.own⟩

/-- A take gives up its place. -/
theorem vacate (h : Seats b ts) {t : Nat} {k : Take} (hk : Table.get? t ts = some k)
    (hp : b'.places.Perm (b.places.erase k.ticket)) (hn : b'.next = b.next) :
    Seats b' (Table.erase t ts) := by
  have hmem : ∀ p, p ∈ b'.places ↔ p ≠ k.ticket ∧ p ∈ b.places := by
    intro p
    rw [hp.mem_iff, h.distinct.mem_erase_iff]
  have get {j : Nat} {k' : Take} (hj : Table.get? j (Table.erase t ts) = some k') :
      j ≠ t ∧ Table.get? j ts = some k' := by
    by_cases he : j = t
    · subst he
      rw [Table.get?_erase_self] at hj
      cases hj
    · rw [Table.get?_erase_of_ne he] at hj
      exact ⟨he, hj⟩
  refine ⟨?_, ?_, ?_, ?_, ?_⟩
  · exact hp.nodup_iff.mpr (h.distinct.erase _)
  · exact fun p hm => hn ▸ h.issued p ((hmem p).mp hm).2
  · intro j k' hj
    obtain ⟨hne, hj⟩ := get hj
    exact (hmem _).mpr ⟨fun he => hne (h.own j k' t k hj hk he), h.seated j k' hj⟩
  · intro p hm
    obtain ⟨hne, hm⟩ := (hmem p).mp hm
    obtain ⟨j, k', hj, rfl⟩ := h.filled p hm
    have hjt : j ≠ t := by
      rintro rfl
      rw [hk] at hj
      exact hne (congrArg Take.ticket (Option.some.inj hj).symm)
    exact ⟨j, k', (Table.get?_erase_of_ne hjt ts).trans hj, rfl⟩
  · intro j k' j' k'' hj hj'
    exact h.own j k' j' k'' (get hj).2 (get hj').2

/-- A take that has no place gets the next one. -/
theorem join (h : Seats b ts) {t : Nat} (ht : Table.get? t ts = none) (deadline : Nat) :
    Seats b.join.1 (Table.insert t ⟨b.next, deadline⟩ ts) := by
  have hp := b.join_places
  have hmem : ∀ p, p ∈ b.join.1.places ↔ p = b.next ∨ p ∈ b.places := by
    intro p
    rw [hp.mem_iff, List.mem_cons]
  have hfresh : b.next ∉ b.places := fun hm => Nat.lt_irrefl _ (h.issued _ hm)
  have get {j : Nat} {k : Take} (hj : Table.get? j (Table.insert t ⟨b.next, deadline⟩ ts) = some k) :
      j = t ∧ k.ticket = b.next ∨ Table.get? j ts = some k := by
    by_cases he : j = t
    · subst he
      rw [Table.get?_insert_self] at hj
      exact Or.inl ⟨rfl, congrArg Take.ticket (Option.some.inj hj).symm⟩
    · rw [Table.get?_insert_of_ne he] at hj
      exact Or.inr hj
  refine ⟨?_, ?_, ?_, ?_, ?_⟩
  · exact hp.nodup_iff.mpr (List.nodup_cons.mpr ⟨hfresh, h.distinct⟩)
  · intro p hm
    change p < b.next + 1
    rcases (hmem p).mp hm with rfl | hm
    · exact Nat.lt_succ_self _
    · exact Nat.lt_succ_of_lt (h.issued p hm)
  · intro j k hj
    rcases get hj with ⟨-, he⟩ | hj
    · exact (hmem _).mpr (Or.inl he)
    · exact (hmem _).mpr (Or.inr (h.seated j k hj))
  · intro p hm
    rcases (hmem p).mp hm with rfl | hm
    · exact ⟨t, _, Table.get?_insert_self _ _ _, rfl⟩
    · obtain ⟨j, k, hj, he⟩ := h.filled p hm
      have hjt : j ≠ t := by
        rintro rfl
        simp [ht] at hj
      exact ⟨j, k, (Table.get?_insert_of_ne hjt _ _).trans hj, he⟩
  · intro j k j' k' hj hj' he
    rcases get hj with ⟨rfl, hk⟩ | ho <;> rcases get hj' with ⟨rfl, hk'⟩ | ho'
    · rfl
    · exact absurd (he.symm.trans hk ▸ h.seated j' k' ho') hfresh
    · exact absurd (he.trans hk' ▸ h.seated j k ho) hfresh
    · exact h.own j k j' k' ho ho' he

end Seats

theorem get?_insert_erase (t : Nat) (k : Take) (ts : Table Nat Take) (j : Nat) :
    Table.get? j (Table.insert t k ts) = Table.get? j (Table.insert t k (Table.erase t ts)) := by
  by_cases h : j = t
  · subst h
    rw [Table.get?_insert_self, Table.get?_insert_self]
  · rw [Table.get?_insert_of_ne h, Table.get?_insert_of_ne h, Table.get?_erase_of_ne h]

theorem get?_erase_absent {t : Nat} {ts : Table Nat Take} (ht : Table.get? t ts = none) (j : Nat) :
    Table.get? j (Table.erase t ts) = Table.get? j ts := by
  by_cases h : j = t
  · rw [h, Table.get?_erase_self, ht]
  · rw [Table.get?_erase_of_ne h]

section
variable {α : Type}

def Take.after (t : Nat) (ts : Table Nat Take) : Progress Take (Taken α) → Table Nat Take
  | .running k | .waiting k => Table.insert t k ts
  | .done _ => Table.erase t ts

theorem Take.after_other {t j : Nat} (hj : j ≠ t) (ts : Table Nat Take)
    (p : Progress Take (Taken α)) : Table.get? j (Take.after t ts p) = Table.get? j ts := by
  cases p with
  | running k | waiting k => exact Table.get?_insert_of_ne hj _ _
  | done x => exact Table.get?_erase_of_ne hj _

structure Handoff.Attends (h : Handoff α) (ts : Table Nat Take) : Prop where
  seats : Seats h.offered ts
  alert : h.closed = false → h.slot.isSome = true → h.offered.Alert

namespace Handoff

variable {h h' : Handoff α} {ts : Table Nat Take}

theorem empty_attends : (empty : Handoff α).Attends [] :=
  ⟨⟨List.nodup_nil, by simp [empty, Bell.silent, Bell.places], by simp [Table.get?],
    by simp [empty, Bell.silent, Bell.places], by simp [Table.get?]⟩,
    fun _ h => by simp [empty] at h⟩

/-- Takers do not mind what becomes of the other bell, or that an item is taken away. -/
theorem Attends.calm (ha : h.Attends ts) (hb : h'.offered = h.offered)
    (hc : h'.closed = false → h.closed = false)
    (hs : h'.slot.isSome = true → h.slot.isSome = true) : h'.Attends ts :=
  ⟨hb ▸ ha.seats, fun ho hi => hb ▸ ha.alert (hc ho) (hs hi)⟩

theorem Attends.congr {ts' : Table Nat Take} (ha : h.Attends ts)
    (ht : ∀ t, Table.get? t ts' = Table.get? t ts) : h.Attends ts' :=
  ⟨ha.seats.congr ht, ha.alert⟩

/-- A take without a place looks into the slot. It need not find anybody else called: if
there is an item it leaves with it. -/
theorem look_attends {t : Nat} (hseats : Seats h.offered (Table.erase t ts)) (now deadline : Nat) :
    (h.lookInSlot now deadline).1.Attends (Take.after t ts (h.lookInSlot now deadline).2) := by
  have hsettle : Seats h.offered.settle (Table.erase t ts) :=
    hseats.perm (List.Perm.refl _) rfl
  cases hc : h.closed with
  | true =>
    have hl : h.lookInSlot now deadline =
        ({ h with offered := h.offered.settle }, .done .closed) := by
      simp [lookInSlot, hc]
    rw [hl]
    exact ⟨hsettle, fun ho => by simp [hc] at ho⟩
  | false =>
    cases hslot : h.slot with
    | some a =>
      have hl : h.lookInSlot now deadline = ({ h with
          slot := none, offered := h.offered.settle, taken := h.taken.ring },
          .done (.item a)) := by
        simp [lookInSlot, hc, hslot]
      rw [hl]
      exact ⟨hsettle, fun _ hsl => by simp at hsl⟩
    | none =>
      by_cases hd : deadline ≤ now
      · have hl : h.lookInSlot now deadline =
            ({ h with offered := h.offered.settle }, .done .timedOut) := by
          simp [lookInSlot, hc, hslot, hd]
        rw [hl]
        exact ⟨hsettle, fun _ hsl => by simp [hslot] at hsl⟩
      · have hl : h.lookInSlot now deadline = ({ h with offered := h.offered.settle.join.1 },
            .waiting ⟨h.offered.next, deadline⟩) := by
          simp [lookInSlot, hc, hslot, hd, Bell.join, Bell.settle]
        rw [hl]
        have hj := hsettle.join (Table.get?_erase_self t ts) deadline
        exact ⟨hj.congr (get?_insert_erase t _ ts), fun _ hsl => by simp [hslot] at hsl⟩

section
variable (ha : h.Attends ts)
include ha

/-- A take goes away without having looked. -/
theorem Attends.gone {t : Nat} {k : Take} (hk : Table.get? t ts = some k) :
    (k.abandon h).Attends (Table.erase t ts) :=
  ⟨ha.seats.vacate hk (Bell.leave_places ha.seats.distinct _) (Bell.leave_next _ _),
    fun hc hsl => Bell.leave_alert (ha.alert hc hsl) _⟩

theorem Attends.resume {t : Nat} {k : Take} (hk : Table.get? t ts = some k) (now : Nat) :
    (k.resume h now).1.Attends (Take.after t ts (k.resume h now).2) := by
  unfold Take.resume
  split
  · exact ha.gone hk
  · split
    · next hcalled =>
      have hv : Seats (h.offered.answer k.ticket) (Table.erase t ts) :=
        ha.seats.vacate hk (Bell.answer_places ha.seats.distinct hcalled ▸ List.Perm.refl _) rfl
      exact look_attends (h := { h with offered := h.offered.answer k.ticket }) hv now k.deadline
    · split
      · exact ha.gone hk
      · refine ha.congr fun j => ?_
        change Table.get? j (Table.insert t k ts) = _
        by_cases he : j = t
        · rw [he, Table.get?_insert_self, hk]
        · rw [Table.get?_insert_of_ne he]

/-- A new item calls somebody. -/
theorem Attends.offered (a : α) (stopped : Bool) : (h.beginOffer a stopped).1.Attends ts := by
  have hseats : Seats h.offered.ring ts := ha.seats.perm (Bell.ring_places _) (Bell.ring_next _)
  cases stopped with
  | true => exact ⟨hseats, fun _ hsl => by simp [beginOffer, watchSlot, reclaim] at hsl⟩
  | false => exact ⟨hseats, fun _ _ => Bell.ring_called _⟩

/-- While an item lies in the open handoff and anybody takes, somebody was called. -/
theorem Attends.called (ho : h.closed = false) (hs : h.slot.isSome = true) {t : Nat} {k : Take}
    (hk : Table.get? t ts = some k) :
    ∃ t' k', Table.get? t' ts = some k' ∧ h.offered.isCalled k'.ticket = true := by
  have hseat := ha.seats.seated t k hk
  have hcalled : h.offered.called ≠ [] := by
    by_cases hw : h.offered.waiting = []
    · intro hc
      simp [Bell.places, hw, hc] at hseat
    · exact ha.alert ho hs hw
  obtain ⟨p, hp⟩ := List.exists_mem_of_ne_nil _ hcalled
  obtain ⟨t', k', hk', rfl⟩ := ha.seats.filled p (List.mem_append_right _ hp)
  exact ⟨t', k', hk', by simpa [Bell.isCalled] using hp⟩

end

end Handoff

end

namespace Session

variable {α : Type}

def ProducerPlace (h : Handoff α) : Option (α × Offer) → Prop
  | none => h.slot = none ∧ h.taken.waiting = [] ∧ h.taken.called = []
  | some (_, o) =>
    (h.slot.isSome = true ∧ h.taken.waiting = [o.ticket] ∧ h.taken.called = []) ∨
    (h.slot = none ∧ h.taken.waiting = [] ∧ h.taken.called = [o.ticket])

structure Attentive (s : Session α) : Prop where
  seats : Seats s.handoff.offered s.taking
  numbered : ∀ t, s.next ≤ t → Table.get? t s.taking = none
  alert : s.handoff.closed = false → s.handoff.slot.isSome = true → s.handoff.offered.Alert
  producer : ProducerPlace s.handoff s.offering

theorem Attentive.attends {s : Session α} (hs : Attentive s) : s.handoff.Attends s.taking :=
  ⟨hs.seats, hs.alert⟩

theorem start_attentive : Attentive (start : Session α) :=
  ⟨Handoff.empty_attends.seats, fun _ _ => rfl, Handoff.empty_attends.alert, ⟨rfl, rfl, rfl⟩⟩

section
variable {s : Session α} (hs : Attentive s)
include hs

/-- An offer that ends leaves an empty slot and no place. -/
theorem ended_attentive {h : Handoff α} (a : α) (r : Offered α)
    (hseats : Seats h.offered s.taking) (hslot : h.slot = none)
    (hw : h.taken.waiting = []) (hc : h.taken.called = []) :
    Attentive (s.afterOffer a (h, .done r)) :=
  ⟨hseats, hs.numbered, fun _ hsl => by simp [afterOffer, hslot] at hsl, hslot, hw, hc⟩

theorem offer_attentive (ho : s.offering = none) (a : α) :
    Attentive (s.afterOffer a (s.handoff.beginOffer a s.stopped)) := by
  have hp := hs.producer
  rw [ho] at hp
  obtain ⟨-, hw, hc⟩ := hp
  generalize s.stopped = stopped
  have ha := hs.attends.offered a stopped
  cases stopped with
  | true => exact ended_attentive hs a (.stopped a) ha.seats rfl hw hc
  | false =>
    refine ⟨ha.seats, hs.numbered, ha.alert, Or.inl ⟨rfl, ?_, hc⟩⟩
    change s.handoff.taken.waiting ++ [s.handoff.taken.next] = [s.handoff.taken.next]
    rw [hw, List.nil_append]

theorem watch_attentive {a : α} {o : Offer} (ho : s.offering = some (a, o)) :
    Attentive (s.afterOffer a (o.resume s.handoff s.stopped)) := by
  have hp := hs.producer
  rw [ho] at hp
  rcases hp with ⟨hsl, hw, hc⟩ | ⟨hsl, hw, hc⟩
  · obtain ⟨b, hb⟩ := Option.isSome_iff_exists.mp hsl
    cases s.stopped with
    | true =>
      have hr : o.resume s.handoff true = ({ s.handoff with
          slot := none, taken := s.handoff.taken.leave o.ticket }, .done (.stopped b)) := by
        simp [Offer.resume, Handoff.reclaim, hb]
      rw [hr]
      refine ended_attentive hs a _ hs.seats rfl ?_ ?_ <;>
        simp [Bell.leave, Bell.isCalled, hw, hc]
    | false =>
      have hr : o.resume s.handoff false = (s.handoff, .waiting o) := by
        simp [Offer.resume, Bell.isCalled, hc]
      rw [hr]
      exact ⟨hs.seats, hs.numbered, hs.alert, Or.inl ⟨hsl, hw, hc⟩⟩
  · cases s.stopped with
    | true =>
      have hr : o.resume s.handoff true = ({ s.handoff with
          taken := s.handoff.taken.leave o.ticket }, .done .accepted) := by
        simp [Offer.resume, Handoff.reclaim, hsl]
      rw [hr]
      refine ended_attentive hs a _ hs.seats hsl ?_ ?_ <;>
        simp [Bell.leave, Bell.isCalled, Bell.answer, Bell.ring, hw, hc]
    | false =>
      have hr : o.resume s.handoff false = ({ s.handoff with
          taken := (s.handoff.taken.answer o.ticket).settle }, .done .accepted) := by
        simp [Offer.resume, Handoff.watchSlot, Bell.isCalled, hsl, hc]
      rw [hr]
      refine ended_attentive hs a _ hs.seats hsl ?_ ?_ <;>
        simp [Bell.answer, Bell.settle, hw, hc]

end

/-- Whoever empties the slot calls the producer. -/
theorem ProducerPlace.emptied {h : Handoff α} {offering : Option (α × Offer)}
    (hp : ProducerPlace h offering) (hs : h.slot.isSome = true) :
    ProducerPlace { h with slot := none, taken := h.taken.ring } offering := by
  cases offering with
  | none => simp [hp.1] at hs
  | some p =>
    rcases hp with ⟨-, hw, hc⟩ | ⟨hn, -, -⟩
    · exact Or.inr ⟨rfl, by simp [Bell.ring, hw], by simp [Bell.ring, hw, hc]⟩
    · simp [hn] at hs

theorem look_producer {h : Handoff α} {offering : Option (α × Offer)}
    (hp : ProducerPlace h offering) (now deadline : Nat) :
    ProducerPlace (h.lookInSlot now deadline).1 offering := by
  have settled : ProducerPlace { h with offered := h.offered.settle } offering := by
    cases offering <;> simpa [ProducerPlace] using hp
  unfold Handoff.lookInSlot
  dsimp only
  split
  · exact settled
  · split
    · next a hs => exact settled.emptied (by simp [hs])
    · split
      · exact settled
      · cases offering <;> simpa [ProducerPlace] using hp

theorem resume_producer {h : Handoff α} {offering : Option (α × Offer)}
    (hp : ProducerPlace h offering) (k : Take) (now : Nat) :
    ProducerPlace (k.resume h now).1 offering := by
  have same {b : Bell} : ProducerPlace { h with offered := b } offering := by
    cases offering <;> simpa [ProducerPlace] using hp
  unfold Take.resume
  split
  · exact same
  · split
    · exact look_producer same now k.deadline
    · split
      · exact same
      · exact hp

/-- After a step of a take that had begun. -/
theorem taken_attentive {s : Session α} {t : Nat} (ht : t < s.next)
    (hn : ∀ t, s.next ≤ t → Table.get? t s.taking = none) {r : Handoff α × Progress Take (Taken α)}
    (ha : r.1.Attends (Take.after t s.taking r.2)) (hp : ProducerPlace r.1 s.offering) :
    Attentive (s.afterTake t r) := by
  have hnumbered (j : Nat) (hj : s.next ≤ j) :
      Table.get? j (Take.after t s.taking r.2) = none :=
    (Take.after_other (by omega) s.taking r.2).trans (hn j hj)
  obtain ⟨h, k | k | ⟨a | _ | _⟩⟩ := r <;> exact ⟨ha.seats, hnumbered, ha.alert, hp⟩

theorem move_attentive {s : Session α} (hs : Attentive s) (m : Move α) : Attentive (s.move m) := by
  have begun {t : Nat} {k : Take} (hk : Table.get? t s.taking = some k) : t < s.next := by
    refine Nat.lt_of_not_le fun h => ?_
    rw [hs.numbered t h] at hk
    cases hk
  cases m with
  | offer a =>
    cases ho : s.offering with
    | none =>
      simp only [move, ho]
      exact offer_attentive hs ho a
    | some p => simpa only [move, ho] using hs
  | watch =>
    cases ho : s.offering with
    | none => simpa only [move, ho] using hs
    | some p =>
      simp only [move, ho]
      exact watch_attentive hs ho
  | take n =>
    have hseats : Seats s.handoff.offered (Table.erase s.next s.taking) :=
      hs.seats.congr (get?_erase_absent (hs.numbered s.next (Nat.le_refl _)))
    exact taken_attentive (s := { s with next := s.next + 1 }) (Nat.lt_succ_self _)
      (fun t ht => hs.numbered t (Nat.le_of_succ_le ht)) (Handoff.look_attends hseats s.now _)
      (look_producer hs.producer s.now _)
  | look t =>
    cases hk : Table.get? t s.taking with
    | none => simpa only [move, hk] using hs
    | some k =>
      simp only [move, hk]
      exact taken_attentive (begun hk) hs.numbered (hs.attends.resume hk s.now)
        (resume_producer hs.producer k s.now)
  | drop t =>
    cases hk : Table.get? t s.taking with
    | none => simpa only [move, hk] using hs
    | some k =>
      simp only [move, hk]
      have hp : ProducerPlace (k.abandon s.handoff) s.offering := by
        cases ho : s.offering <;> simpa [ProducerPlace, Take.abandon, ho] using hs.producer
      exact taken_attentive (r := (k.abandon s.handoff, .done .timedOut)) (begun hk) hs.numbered
        (hs.attends.gone hk) hp
  | stop => exact ⟨hs.seats, hs.numbered, hs.alert, hs.producer⟩
  | close =>
    refine ⟨hs.seats, hs.numbered, fun h => by simp [move, Handoff.close] at h, ?_⟩
    have hp := hs.producer
    change ProducerPlace s.handoff.close s.offering
    cases ho : s.offering <;> simpa [ProducerPlace, Handoff.close, ho] using hp
  | wait n => exact ⟨hs.seats, hs.numbered, hs.alert, hs.producer⟩

theorem run_attentive (ms : List (Move α)) {s : Session α} (hs : Attentive s) :
    Attentive (run ms s) := by
  induction ms generalizing s with
  | nil => exact hs
  | cons m ms ih => exact ih (move_attentive hs m)

section
variable {s : Session α} (hs : Attentive s)
include hs

theorem producer_called {a : α} {o : Offer} (ho : s.offering = some (a, o))
    (hn : s.handoff.slot = none) : s.handoff.taken.isCalled o.ticket = true := by
  have hp := hs.producer
  rw [ho] at hp
  rcases hp with ⟨hsl, -, -⟩ | ⟨-, -, hc⟩
  · simp [hn] at hsl
  · simp [Bell.isCalled, hc]

end

/-- A take that was called leaves with the item. -/
theorem called_takes {s : Session α} (ho : s.handoff.closed = false) {a : α}
    (ha : s.handoff.slot = some a) {t : Nat} {k : Take} (hk : Table.get? t s.taking = some k)
    (hc : s.handoff.offered.isCalled k.ticket = true) :
    (s.move (.look t)).taken = s.taken ++ [(t, a)] := by
  simp [move, hk, Take.resume, ho, hc, Handoff.lookInSlot, ha, afterTake]

theorem called_accepts {s : Session α} {a : α} {o : Offer} (ho : s.offering = some (a, o))
    (hn : s.handoff.slot = none) (hc : s.handoff.taken.isCalled o.ticket = true) :
    (s.move .watch).offers = s.offers ++ [(a, .accepted)] := by
  cases hst : s.stopped <;>
    simp [move, ho, Offer.resume, hst, hc, Handoff.watchSlot, Handoff.reclaim, hn, afterOffer]

theorem closed_ends {s : Session α} (hcl : s.handoff.closed = true) {t : Nat} {k : Take}
    (hk : Table.get? t s.taking = some k) :
    k.woken s.handoff s.now = true ∧ (k.resume s.handoff s.now).2 = .done .closed ∧
      Table.get? t (s.move (.look t)).taking = none := by
  refine ⟨by simp [Take.woken, hcl], by simp [Take.resume, hcl], ?_⟩
  simp [move, hk, Take.resume, hcl, afterTake, Table.get?_erase_self]

/-- In every run of a handoff: while it is open and an item lies in the slot, if any take
is suspended then one of them was called and leaves with the item when it goes on next,
whether or not its deadline has come; if the slot is empty while an offer is suspended, the
offer was called and is accepted when it goes on next; and after a close every suspended
take is woken and ends closed. -/
theorem no_wakeup_lost (ms : List (Move α)) :
    let s := run ms start
    (∀ a, s.handoff.closed = false → s.handoff.slot = some a →
      (∃ t k, Table.get? t s.taking = some k) →
      ∃ t k, Table.get? t s.taking = some k ∧ s.handoff.offered.isCalled k.ticket = true ∧
        (s.move (.look t)).taken = s.taken ++ [(t, a)]) ∧
    (∀ a o, s.offering = some (a, o) → s.handoff.slot = none →
      s.handoff.taken.isCalled o.ticket = true ∧
        (s.move .watch).offers = s.offers ++ [(a, .accepted)]) ∧
    (s.handoff.closed = true → ∀ t k, Table.get? t s.taking = some k →
      k.woken s.handoff s.now = true ∧ (k.resume s.handoff s.now).2 = .done .closed ∧
        Table.get? t (s.move (.look t)).taking = none) := by
  intro s
  have hs : Attentive s := run_attentive ms start_attentive
  refine ⟨?_, ?_, fun hcl t k hk => closed_ends hcl hk⟩
  · rintro a ho ha ⟨t, k, hk⟩
    obtain ⟨t', k', hk', hc⟩ := hs.attends.called ho (by simp [ha]) hk
    exact ⟨t', k', hk', hc, called_takes ho ha hk' hc⟩
  · intro a o ho hn
    have hc := producer_called hs ho hn
    exact ⟨hc, called_accepts ho hn hc⟩

/-- Two takes wait when an item comes: the first is called, leaves with it, and the offer is
called in turn. -/
theorem first_take_called :
    let s := run [.take 5, .take 5, .offer "item"] start
    s.handoff.slot = some "item" ∧ (Table.get? 0 s.taking).isSome = true ∧
    (∃ t k, Table.get? t s.taking = some k ∧ s.handoff.offered.isCalled k.ticket = true ∧
      (s.move (.look t)).taken = s.taken ++ [(t, "item")]) ∧
    let s' := s.move (.look 0)
    s'.handoff.slot = none ∧ s'.handoff.taken.isCalled 0 = true := by
  intro s
  have hs := no_wakeup_lost [.take 5, .take 5, .offer "item"]
  have hs' := no_wakeup_lost [.take 5, .take 5, .offer "item", .look 0]
  exact ⟨rfl, rfl, hs.1 "item" rfl rfl ⟨0, _, rfl⟩, rfl, (hs'.2.1 "item" ⟨0⟩ rfl rfl).1⟩

end Session

end TaskRelay
