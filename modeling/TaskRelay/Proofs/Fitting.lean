import Mathlib.Data.List.Basic

/-!
# Histories whose elements fit what came before

A history grows at its end. What is asked of each of its elements, given those before it,
has to be shown for the last one only.
-/

set_option autoImplicit false

namespace TaskRelay

variable {α : Type}

/-- An element of a longer history is one of the history before, or the last one. -/
theorem split_snoc {h a b : List α} {x y : α} (he : h ++ [x] = a ++ y :: b) :
    (b = [] ∧ a = h ∧ y = x) ∨ ∃ b', b = b' ++ [x] ∧ h = a ++ y :: b' := by
  rcases List.eq_nil_or_concat b with rfl | ⟨b', z, rfl⟩
  · obtain ⟨rfl, hx⟩ := List.append_inj' he rfl
    exact Or.inl ⟨rfl, rfl, (List.cons.inj hx).1.symm⟩
  · right
    have he' : h ++ [x] = (a ++ y :: b') ++ [z] := by simpa using he
    obtain ⟨rfl, hx⟩ := List.append_inj' he' rfl
    exact ⟨b', by rw [(List.cons.inj hx).1, List.concat_eq_append], rfl⟩

def Fitting (F : List α → α → Prop) (h : List α) : Prop := ∀ a x b, h = a ++ x :: b → F a x

namespace Fitting

variable {F : List α → α → Prop} {h : List α}

theorem nil : Fitting F [] := by
  intro a x b he
  simp at he

theorem snoc {x : α} (hh : Fitting F h) (hx : F h x) : Fitting F (h ++ [x]) := by
  intro a y b he
  rcases split_snoc he with ⟨-, rfl, rfl⟩ | ⟨b', -, rfl⟩
  · exact hx
  · exact hh a y b' rfl

theorem before {a b : List α} (hh : Fitting F (a ++ b)) : Fitting F a := by
  rintro c x d rfl
  exact hh c x (d ++ b) (by simp)

end Fitting

end TaskRelay
