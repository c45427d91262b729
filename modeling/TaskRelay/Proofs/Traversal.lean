import Mathlib.Data.List.Forall2

/-!
# Readings of a list, element by element

A list is read as a whole by reading each of its elements. The reading succeeds if every
element can be read, and fails for a reason for which some element fails.
-/

set_option autoImplicit false

namespace TaskRelay

variable {α β γ ε : Type}

theorem bind_ok_iff {x : Except ε α} {g : α → Except ε β} {b : β} :
    x >>= g = .ok b ↔ ∃ a, x = .ok a ∧ g a = .ok b := by
  cases x <;> simp [bind, Except.bind]

theorem mapM_ok_iff {f : α → Except ε β} {as : List α} {bs : List β} :
    as.mapM f = .ok bs ↔ List.Forall₂ (fun a b => f a = .ok b) as bs := by
  induction as generalizing bs with
  | nil => simp [pure, Except.pure, eq_comm]
  | cons a as ih =>
    simp only [List.mapM_cons, bind_ok_iff, ih, List.forall₂_cons_left_iff]
    constructor
    · rintro ⟨b, hb, cs, hcs, ⟨⟩⟩
      exact ⟨b, cs, hb, hcs, rfl⟩
    · rintro ⟨b, cs, hb, hcs, rfl⟩
      exact ⟨b, hb, cs, hcs, rfl⟩

/-- Elements that stand for something are read as something that fits it. -/
theorem exists_mapM {R : α → β → Prop} {S : β → γ → Prop} {f : α → Except ε γ}
    (hf : ∀ a b, R a b → ∃ c, f a = .ok c ∧ S b c) {as : List α} {bs : List β}
    (h : List.Forall₂ R as bs) : ∃ cs, as.mapM f = .ok cs ∧ List.Forall₂ S bs cs := by
  induction h with
  | nil => exact ⟨[], rfl, .nil⟩
  | cons hab _ ih =>
    obtain ⟨c, hc, hs⟩ := hf _ _ hab
    obtain ⟨cs, hcs, hss⟩ := ih
    exact ⟨c :: cs, by rw [List.mapM_cons, hc, hcs]; rfl, .cons hs hss⟩

def FailsAs (P : ε → Prop) (x : Except ε α) : Prop := ∀ e, x = .error e → P e

namespace FailsAs

variable {P : ε → Prop}

theorem ok (a : α) : FailsAs P (.ok a) := by
  intro e h
  cases h

theorem bind {x : Except ε α} {g : α → Except ε β} (hx : FailsAs P x)
    (hg : ∀ a, FailsAs P (g a)) : FailsAs P (x >>= g) := by
  cases x with
  | error e => exact fun e' h => hx e' (by cases h; rfl)
  | ok a => exact hg a

theorem mapM {f : α → Except ε β} (hf : ∀ a, FailsAs P (f a)) (as : List α) :
    FailsAs P (as.mapM f) := by
  induction as with
  | nil => exact ok []
  | cons a as ih =>
    rw [List.mapM_cons]
    exact (hf a).bind fun b => ih.bind fun bs => ok (b :: bs)

end FailsAs

end TaskRelay
