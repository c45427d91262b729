import TaskRelay.Handoff.Basic

/-!
# The slot of a handoff

What one step of an offer or of a take does to the slot, and how it ends when
it does. Bells decide when somebody goes on, never what happens to an item, so
they do not occur in these statements.
-/

set_option autoImplicit false

namespace TaskRelay

variable {α : Type}

namespace Handoff

theorem watchSlot_slot (h : Handoff α) (stopped : Bool) :
    (∃ o, (h.watchSlot stopped).2 = .waiting o ∧ (h.watchSlot stopped).1.slot = h.slot) ∨
    (h.slot = none ∧ (h.watchSlot stopped).2 = .done .accepted ∧
      (h.watchSlot stopped).1.slot = none) ∨
    (∃ a, h.slot = some a ∧ (h.watchSlot stopped).2 = .done (.stopped a) ∧
      (h.watchSlot stopped).1.slot = none) := by
  cases hs : h.slot with
  | none => exact Or.inr (Or.inl ⟨rfl, by simp [watchSlot, hs]⟩)
  | some a =>
    cases stopped with
    | true => exact Or.inr (Or.inr ⟨a, rfl, by simp [watchSlot, reclaim, hs]⟩)
    | false =>
      exact Or.inl ⟨⟨h.taken.settle.join.2⟩, by simp [watchSlot, hs], by simp [watchSlot, hs]⟩

/-- A new offer is never accepted at once. -/
theorem beginOffer_slot (h : Handoff α) (a : α) (stopped : Bool) :
    (∃ o, (h.beginOffer a stopped).2 = .waiting o ∧
      (h.beginOffer a stopped).1.slot = some a) ∨
    ((h.beginOffer a stopped).2 = .done (.stopped a) ∧
      (h.beginOffer a stopped).1.slot = none) := by
  cases stopped with
  | true => exact Or.inr ⟨rfl, rfl⟩
  | false => exact Or.inl ⟨_, rfl, rfl⟩

theorem lookInSlot_slot (h : Handoff α) (now deadline : Nat) :
    (∃ t, (h.lookInSlot now deadline).2 = .waiting t ∧
      (h.lookInSlot now deadline).1.slot = h.slot) ∨
    (∃ a, h.slot = some a ∧ (h.lookInSlot now deadline).2 = .done (.item a) ∧
      (h.lookInSlot now deadline).1.slot = none) ∨
    (((h.lookInSlot now deadline).2 = .done .timedOut ∨
        (h.lookInSlot now deadline).2 = .done .closed) ∧
      (h.lookInSlot now deadline).1.slot = h.slot) := by
  by_cases hc : h.closed = true
  · exact Or.inr (Or.inr ⟨Or.inr (by simp [lookInSlot, hc]), by simp [lookInSlot, hc]⟩)
  cases hs : h.slot with
  | some a => exact Or.inr (Or.inl ⟨a, rfl, by simp [lookInSlot, hc, hs]⟩)
  | none =>
    by_cases hd : deadline ≤ now
    · exact Or.inr (Or.inr ⟨Or.inl (by simp [lookInSlot, hc, hs, hd]),
        by simp [lookInSlot, hc, hs, hd]⟩)
    · exact Or.inl ⟨⟨h.offered.settle.join.2, deadline⟩,
        by simp [lookInSlot, hc, hs, hd], by simp [lookInSlot, hc, hs, hd]⟩

end Handoff

/-- An offer that goes on still waits, or ends accepted with the slot empty, or
has the item of the slot back. -/
theorem Offer.resume_slot (o : Offer) (h : Handoff α) (stopped : Bool) :
    (∃ o', (o.resume h stopped).2 = .waiting o' ∧ (o.resume h stopped).1.slot = h.slot) ∨
    (h.slot = none ∧ (o.resume h stopped).2 = .done .accepted ∧
      (o.resume h stopped).1.slot = none) ∨
    (∃ a, h.slot = some a ∧ (o.resume h stopped).2 = .done (.stopped a) ∧
      (o.resume h stopped).1.slot = none) := by
  cases stopped with
  | true =>
    cases hs : h.slot with
    | none => exact Or.inr (Or.inl ⟨rfl, by simp [resume, Handoff.reclaim, hs]⟩)
    | some a => exact Or.inr (Or.inr ⟨a, rfl, by simp [resume, Handoff.reclaim, hs]⟩)
  | false =>
    by_cases hc : h.taken.isCalled o.ticket = true
    · have hw := Handoff.watchSlot_slot { h with taken := h.taken.answer o.ticket } false
      simpa [resume, hc] using hw
    · exact Or.inl ⟨o, by simp [resume, hc], by simp [resume, hc]⟩

theorem Take.abandon_slot (t : Take) (h : Handoff α) : (t.abandon h).slot = h.slot := rfl

/-- A take that goes on still waits, or ends with the item of the slot and the
slot empty, or ends without touching the slot. -/
theorem Take.resume_slot (t : Take) (h : Handoff α) (now : Nat) :
    (∃ t', (t.resume h now).2 = .waiting t' ∧ (t.resume h now).1.slot = h.slot) ∨
    (∃ a, h.slot = some a ∧ (t.resume h now).2 = .done (.item a) ∧
      (t.resume h now).1.slot = none) ∨
    (((t.resume h now).2 = .done .timedOut ∨ (t.resume h now).2 = .done .closed) ∧
      (t.resume h now).1.slot = h.slot) := by
  by_cases hc : h.closed = true
  · exact Or.inr (Or.inr ⟨Or.inr (by simp [resume, hc]), by simp [resume, hc, abandon]⟩)
  by_cases hw : h.offered.isCalled t.ticket = true
  · have hl :=
      Handoff.lookInSlot_slot { h with offered := h.offered.answer t.ticket } now t.deadline
    simpa [resume, hc, hw] using hl
  by_cases hd : t.deadline ≤ now
  · exact Or.inr (Or.inr ⟨Or.inl (by simp [resume, hc, hw, hd]),
      by simp [resume, hc, hw, hd, abandon]⟩)
  · exact Or.inl ⟨t, by simp [resume, hc, hw, hd], by simp [resume, hc, hw, hd]⟩

end TaskRelay
