import Mathlib.Data.List.Nodup
import TaskRelay.Proofs.Handoff.Session
import TaskRelay.Proofs.Handoff.Slot

/-!
# Items pass through a handoff exactly once

The slot only ever holds the item of the offer under way, so a taker that empties
it has that item and nobody else gets it. Whatever the bells, the stop and the
close do in between, every item offered is returned by one take, or handed back
to the producer, or still in the slot.
-/

set_option autoImplicit false

namespace TaskRelay.Session
open scoped List

variable {α : Type}

structure Balanced (s : Session α) : Prop where
  own : ∀ p ∈ s.offers, p.2 = .accepted ∨ p.2 = .stopped p.1
  order : s.items = s.accepted ++ s.unreported
  held : ∀ a, s.handoff.slot = some a → ∃ o, s.offering = some (a, o)

theorem start_balanced : Balanced (start : Session α) :=
  ⟨by simp [start], rfl, by simp [start, Handoff.empty]⟩

theorem items_idle {s : Session α} (hs : Balanced s) (ho : s.offering = none) :
    s.items = s.accepted := by
  rw [hs.order]
  simp [unreported, ho]

theorem offer_balanced {s : Session α} (hs : Balanced s) (ho : s.offering = none) (a : α) :
    Balanced (s.afterOffer a (s.handoff.beginOffer a s.stopped)) := by
  have hi := items_idle hs ho
  have hb := Handoff.beginOffer_slot s.handoff a s.stopped
  generalize s.handoff.beginOffer a s.stopped = r at hb ⊢
  obtain ⟨h, p⟩ := r
  rcases hb with ⟨o, rfl, hslot⟩ | ⟨rfl, hslot⟩
  · change h.slot = some a at hslot
    refine ⟨hs.own, ?_, ?_⟩
    · simpa [afterOffer, items, accepted, unreported, hslot] using hi
    · intro b hb
      exact ⟨o, by simpa [afterOffer, hslot] using hb⟩
  · change h.slot = none at hslot
    constructor
    · intro p hp
      rcases List.mem_append.mp hp with hp | hp
      · exact hs.own p hp
      · rw [List.mem_singleton.mp hp]
        exact Or.inr rfl
    · simpa [afterOffer, items, accepted, unreported] using hi
    · intro b hb
      simp [afterOffer, hslot] at hb

theorem watch_balanced {s : Session α} (hs : Balanced s) {a : α} {o : Offer}
    (ho : s.offering = some (a, o)) :
    Balanced (s.afterOffer a (o.resume s.handoff s.stopped)) := by
  have hord := hs.order
  have hb := Offer.resume_slot o s.handoff s.stopped
  generalize o.resume s.handoff s.stopped = r at hb ⊢
  obtain ⟨h, p⟩ := r
  rcases hb with ⟨o', rfl, hslot⟩ | ⟨he, rfl, hslot⟩ | ⟨b, hb, rfl, hslot⟩
  · change h.slot = s.handoff.slot at hslot
    refine ⟨hs.own, ?_, ?_⟩
    · simpa [afterOffer, items, accepted, unreported, hslot, ho] using hord
    · intro b hb
      obtain ⟨o₀, h₀⟩ := hs.held b (hslot.symm.trans hb)
      obtain ⟨rfl, -⟩ : a = b ∧ o = o₀ := by simpa [ho] using h₀
      exact ⟨o', rfl⟩
  · change h.slot = none at hslot
    constructor
    · intro p hp
      rcases List.mem_append.mp hp with hp | hp
      · exact hs.own p hp
      · rw [List.mem_singleton.mp hp]
        exact Or.inl rfl
    · simpa [afterOffer, items, accepted, unreported, ho, he] using hord
    · intro b hb
      simp [afterOffer, hslot] at hb
  · obtain ⟨o₀, h₀⟩ := hs.held b hb
    obtain ⟨rfl, -⟩ : a = b ∧ o = o₀ := by simpa [ho] using h₀
    change h.slot = none at hslot
    constructor
    · intro p hp
      rcases List.mem_append.mp hp with hp | hp
      · exact hs.own p hp
      · rw [List.mem_singleton.mp hp]
        exact Or.inr rfl
    · simpa [afterOffer, items, accepted, unreported, ho, hb] using hord
    · intro b hb
      simp [afterOffer, hslot] at hb

/-- A step of a take leaves the slot alone, or empties it and has its item. -/
theorem take_balanced {s : Session α} (hs : Balanced s) (t : Nat)
    (r : Handoff α × Progress Take (Taken α))
    (hr : (∃ k, r.2 = .waiting k ∧ r.1.slot = s.handoff.slot) ∨
      (∃ a, s.handoff.slot = some a ∧ r.2 = .done (.item a) ∧ r.1.slot = none) ∨
      ((r.2 = .done .timedOut ∨ r.2 = .done .closed) ∧ r.1.slot = s.handoff.slot)) :
    Balanced (s.afterTake t r) := by
  have hord := hs.order
  obtain ⟨h, p⟩ := r
  rcases hr with ⟨k, rfl, hslot⟩ | ⟨a, ha, rfl, hslot⟩ | ⟨hp, hslot⟩
  · change h.slot = s.handoff.slot at hslot
    exact ⟨hs.own, by simpa [afterTake, items, accepted, unreported, hslot] using hord,
      by simpa [afterTake, hslot] using hs.held⟩
  · change h.slot = none at hslot
    obtain ⟨o, ho⟩ := hs.held a ha
    refine ⟨hs.own, ?_, ?_⟩
    · have hi : s.items = s.accepted := by simpa [unreported, ho, ha] using hord
      simpa [afterTake, items, accepted, unreported, ho, hslot] using hi
    · intro b hb
      simp [afterTake, hslot] at hb
  · change h.slot = s.handoff.slot at hslot
    rcases hp with rfl | rfl <;>
      exact ⟨hs.own, by simpa [afterTake, items, accepted, unreported, hslot] using hord,
        by simpa [afterTake, hslot] using hs.held⟩

theorem move_balanced {s : Session α} (hs : Balanced s) (m : Move α) : Balanced (s.move m) := by
  cases m with
  | offer a =>
    cases ho : s.offering with
    | none =>
      simp only [move, ho]
      exact offer_balanced hs ho a
    | some p => simpa only [move, ho] using hs
  | watch =>
    cases ho : s.offering with
    | none => simpa only [move, ho] using hs
    | some p =>
      simp only [move, ho]
      exact watch_balanced hs ho
  | take n =>
    have hn : Balanced { s with next := s.next + 1 } := ⟨hs.own, hs.order, hs.held⟩
    exact take_balanced hn s.next _ (Handoff.lookInSlot_slot s.handoff s.now (s.now + n))
  | look t =>
    cases ht : Table.get? t s.taking with
    | none => simpa only [move, ht] using hs
    | some k =>
      simp only [move, ht]
      exact take_balanced hs t _ (Take.resume_slot k s.handoff s.now)
  | drop t =>
    cases ht : Table.get? t s.taking with
    | none => simpa only [move, ht] using hs
    | some k =>
      simp only [move, ht]
      exact ⟨hs.own, hs.order, hs.held⟩
  | stop => exact ⟨hs.own, hs.order, hs.held⟩
  | close => exact ⟨hs.own, hs.order, hs.held⟩
  | wait n => exact ⟨hs.own, hs.order, hs.held⟩

theorem run_balanced (ms : List (Move α)) {s : Session α} (hs : Balanced s) :
    Balanced (run ms s) := by
  induction ms generalizing s with
  | nil => exact hs
  | cons m ms ih => exact ih (move_balanced hs m)

theorem move_offered (s : Session α) (m : Move α) :
    (s.move m).offered = s.offered ∨
      ∃ a, m = .offer a ∧ (s.move m).offered = s.offered ++ [a] := by
  have take (s : Session α) (t : Nat) (r : Handoff α × Progress Take (Taken α)) :
      (s.afterTake t r).offered = s.offered := by
    obtain ⟨h, k | k | a | _ | _⟩ := r <;> rfl
  cases m with
  | offer a =>
    cases ho : s.offering with
    | none =>
      refine Or.inr ⟨a, rfl, ?_⟩
      simp only [move, ho]
      obtain ⟨h, o | o | r⟩ := s.handoff.beginOffer a s.stopped <;>
        simp [afterOffer, offered, ho]
    | some p => exact Or.inl (by simp only [move, ho])
  | watch =>
    apply Or.inl
    cases ho : s.offering with
    | none => simp only [move, ho]
    | some p =>
      obtain ⟨a, o⟩ := p
      simp only [move, ho]
      obtain ⟨h, o' | o' | r⟩ := o.resume s.handoff s.stopped <;>
        simp [afterOffer, offered, ho]
  | take n => exact Or.inl (take _ _ _)
  | look t =>
    apply Or.inl
    cases ht : Table.get? t s.taking with
    | none => simp only [move, ht]
    | some k =>
      simp only [move, ht]
      exact take _ _ _
  | drop t =>
    apply Or.inl
    cases ht : Table.get? t s.taking <;> simp only [move, ht]
    rfl
  | stop => exact Or.inl rfl
  | close => exact Or.inl rfl
  | wait n => exact Or.inl rfl

def Distinct (n : Nat) (s : Session (Nat × α)) : Prop :=
  (s.offered.map Prod.fst).Nodup ∧ ∀ x ∈ s.offered, x.1 < n

theorem move_distinct {n : Nat} {s : Session (Nat × α)} (hs : Distinct n s) (m : Move α) :
    Distinct (n + 1) (s.move (m.map (Prod.mk n))) := by
  rcases move_offered s (m.map (Prod.mk n)) with h | ⟨x, hm, h⟩
  · unfold Distinct
    rw [h]
    exact ⟨hs.1, fun x hx => Nat.lt_succ_of_lt (hs.2 x hx)⟩
  · have hx : x.1 = n := by
      cases m <;> simp only [Move.map, Move.offer.injEq, reduceCtorEq] at hm
      rw [← hm]
    unfold Distinct
    rw [h]
    constructor
    · rw [List.map_append, List.nodup_append]
      refine ⟨hs.1, by simp, ?_⟩
      intro i hi j hj he
      obtain ⟨y, hy, rfl⟩ := List.mem_map.mp hi
      have hlt := hs.2 y hy
      simp only [List.map_cons, List.map_nil, List.mem_singleton] at hj
      omega
    · intro y hy
      rcases List.mem_append.mp hy with hy | hy
      · exact Nat.lt_succ_of_lt (hs.2 y hy)
      · rw [List.mem_singleton.mp hy, hx]
        exact Nat.lt_succ_self n

theorem run_distinct (ms : List (Move α)) {n : Nat} {s : Session (Nat × α)}
    (hs : Distinct n s) : ((run (numbered n ms) s).offered).Nodup := by
  induction ms generalizing n s with
  | nil => exact hs.1.of_map
  | cons m ms ih => exact ih (move_distinct hs m)

theorem mem_accepted (s : Session α) (x : α) : x ∈ s.accepted ↔ (x, .accepted) ∈ s.offers := by
  simp only [accepted, List.mem_filterMap]
  constructor
  · rintro ⟨⟨y, r⟩, hp, h⟩
    cases r <;> simp at h
    exact h ▸ hp
  · intro h
    exact ⟨_, h, rfl⟩

theorem accepted_sublist (s : Session α) : s.accepted <+ s.offers.map Prod.fst := by
  unfold accepted
  induction s.offers with
  | nil => exact List.Sublist.slnil
  | cons p ps ih =>
    obtain ⟨x, r⟩ := p
    cases r
    · exact ih.cons_cons x
    · exact ih.cons x

theorem unreported_sublist (s : Session α) :
    s.unreported <+ (s.offering.map Prod.fst).toList := by
  unfold unreported
  cases s.offering with
  | none => simp
  | some p => by_cases hs : s.handoff.slot.isNone = true <;> simp [hs]

theorem items_sublist {s : Session α} (hs : Balanced s) : s.items <+ s.offered := by
  rw [hs.order]
  exact (accepted_sublist s).append (unreported_sublist s)

theorem offers_unique {s : Session α} (hd : s.offered.Nodup) {x : α} {r r' : Offered α}
    (h : (x, r) ∈ s.offers) (h' : (x, r') ∈ s.offers) : r = r' := by
  have hn : (s.offers.map Prod.fst).Nodup := (List.nodup_append.mp hd).1
  exact (Prod.ext_iff.mp (List.inj_on_of_nodup_map hn h h' rfl)).2

theorem current_not_returned {s : Session α} (hd : s.offered.Nodup) {x : α} {r : Offered α}
    (hx : x ∈ (s.offering.map Prod.fst).toList) : (x, r) ∉ s.offers := by
  intro h
  exact (List.nodup_append.mp hd).2.2 x (List.mem_map_of_mem h) x hx rfl

section
variable {s : Session α} (hs : Balanced s) (hd : s.offered.Nodup)
include hs hd

theorem accepted_iff_taken {x : α} {r : Offered α} (h : (x, r) ∈ s.offers) :
    r = .accepted ↔ x ∈ s.items := by
  rw [hs.order, List.mem_append, mem_accepted]
  constructor
  · rintro rfl
    exact Or.inl h
  · rintro (ha | hu)
    · exact offers_unique hd h ha
    · exact absurd h (current_not_returned hd ((unreported_sublist s).subset hu))

theorem stopped_iff_untaken {x : α} {r : Offered α} (h : (x, r) ∈ s.offers) (y : α) :
    r = .stopped y ↔ y = x ∧ x ∉ s.items := by
  rw [← accepted_iff_taken hs hd h]
  obtain rfl | rfl : r = .accepted ∨ r = .stopped x := hs.own _ h
  · simp
  · simp [eq_comm]

theorem taken_once {x : α} : x ∈ s.items ↔ ∃! t, (t, x) ∈ s.taken := by
  have hn : (s.taken.map Prod.snd).Nodup := hd.sublist (items_sublist hs)
  constructor
  · intro h
    obtain ⟨⟨t, y⟩, ht, rfl⟩ := List.mem_map.mp h
    refine ⟨t, ht, ?_⟩
    intro t' ht'
    exact (Prod.ext_iff.mp (List.inj_on_of_nodup_map hn ht' ht rfl)).1
  · rintro ⟨t, ht, -⟩
    exact List.mem_map_of_mem ht

/-- An item in the slot was neither handed back nor returned by a take. -/
theorem slot_excludes {x : α} (hx : s.handoff.slot = some x) :
    x ∉ s.items ∧ ∀ r, (x, r) ∉ s.offers := by
  obtain ⟨o, ho⟩ := hs.held x hx
  have hr : ∀ r, (x, r) ∉ s.offers := fun r => current_not_returned hd (by simp [ho])
  refine ⟨?_, hr⟩
  rw [hs.order, List.mem_append, mem_accepted]
  simp [unreported, ho, hx, hr]

/-- An offered item is in one place, and in no other. -/
theorem one_place {x : α} (hx : x ∈ s.offered) :
    (x ∈ s.items ∧ (x, .stopped x) ∉ s.offers ∧ s.handoff.slot ≠ some x) ∨
    (x ∉ s.items ∧ (x, .stopped x) ∈ s.offers ∧ s.handoff.slot ≠ some x) ∨
    (x ∉ s.items ∧ (x, .stopped x) ∉ s.offers ∧ s.handoff.slot = some x) := by
  rcases List.mem_append.mp hx with hx | hx
  · obtain ⟨⟨y, r⟩, hp, rfl⟩ := List.mem_map.mp hx
    have hslot : s.handoff.slot ≠ some y := fun h => (slot_excludes hs hd h).2 r hp
    obtain rfl | rfl : r = .accepted ∨ r = .stopped y := hs.own _ hp
    · refine Or.inl ⟨(accepted_iff_taken hs hd hp).mp rfl, ?_, hslot⟩
      intro h
      simpa using offers_unique hd hp h
    · refine Or.inr (Or.inl ⟨?_, hp, hslot⟩)
      rw [← accepted_iff_taken hs hd hp]
      simp
  · have hr : ∀ r, (x, r) ∉ s.offers := fun r => current_not_returned hd hx
    obtain ⟨⟨y, o⟩, ho, rfl⟩ : ∃ p, s.offering = some p ∧ p.1 = x := by simpa using hx
    cases hc : s.handoff.slot with
    | none =>
      refine Or.inl ⟨?_, hr _, by simp⟩
      rw [hs.order]
      simp [unreported, ho, hc]
    | some a =>
      obtain ⟨o', ho'⟩ := hs.held a hc
      obtain ⟨rfl, -⟩ : y = a ∧ o = o' := by simpa [ho] using ho'
      exact Or.inr (Or.inr ⟨(slot_excludes hs hd hc).1, hr _, rfl⟩)

end

/-- In every run of a handoff, with its items numbered in the order of the offers:
an offer was accepted exactly if one take has returned its item, and it was stopped
exactly if it has its own item back, which no take returns; no two takes return
one item; takes return the items of the accepted offers in order, and beyond these at
most that of the offer under way; and every item is in one place. -/
theorem items_pass_once (ms : List (Move α)) :
    let s := run (numbered 0 ms) start
    s.map Prod.snd = run ms start ∧
    (∀ x r, (x, r) ∈ s.offers →
      (r = .accepted ↔ ∃! t, (t, x) ∈ s.taken) ∧
      ∀ y, r = .stopped y ↔ y = x ∧ x ∉ s.items) ∧
    s.items.Nodup ∧
    s.items = s.accepted ++ s.unreported ∧
    (∀ x ∈ s.offered,
      (x ∈ s.items ∧ (x, .stopped x) ∉ s.offers ∧ s.handoff.slot ≠ some x) ∨
      (x ∉ s.items ∧ (x, .stopped x) ∈ s.offers ∧ s.handoff.slot ≠ some x) ∨
      (x ∉ s.items ∧ (x, .stopped x) ∉ s.offers ∧ s.handoff.slot = some x)) ∧
    ∀ x, s.handoff.slot = some x → ∃ o, s.offering = some (x, o) := by
  intro s
  have hs : Balanced s := run_balanced _ start_balanced
  have hd : s.offered.Nodup := run_distinct ms ⟨List.nodup_nil, by simp [start, offered]⟩
  refine ⟨run_numbered ms, ?_, hd.sublist (items_sublist hs), hs.order,
    fun x hx => one_place hs hd hx, hs.held⟩
  intro x r h
  exact ⟨(accepted_iff_taken hs hd h).trans (taken_once hs hd), stopped_iff_untaken hs hd h⟩

end TaskRelay.Session
