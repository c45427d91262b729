import Mathlib.Data.List.DropRight
import TaskRelay.Text.Blank
import TaskRelay.Text.Cut

/-!
# Cuts and trims

A text is cut first where the character occurs first, and last where it occurs last. Its pieces
are free of the separator, and joined they give the text. Trimming takes the blanks at both
ends away, until it meets a character at each end that is none.
-/

set_option autoImplicit false

namespace TaskRelay.Text

section
variable {sep : Char} {a : List Char}

theorem cutFirst_append (h : sep ∉ a) (b : List Char) :
    cutFirst sep (a ++ sep :: b) = some (a, b) := by
  induction a with
  | nil => simp [cutFirst]
  | cons c a ih =>
    obtain ⟨hc, hs⟩ := List.ne_and_not_mem_of_not_mem_cons h
    rw [List.cons_append, cutFirst, if_neg hc.symm, ih hs, Option.map_some]

theorem cutFirst_eq_none (h : sep ∉ a) : cutFirst sep a = none := by
  induction a with
  | nil => rfl
  | cons c a ih =>
    obtain ⟨hc, hs⟩ := List.ne_and_not_mem_of_not_mem_cons h
    rw [cutFirst, if_neg hc.symm, ih hs, Option.map_none]

theorem cutLast_eq_none_iff : cutLast sep a = none ↔ sep ∉ a := by
  induction a with
  | nil => simp [cutLast]
  | cons c a ih =>
    rw [cutLast, List.mem_cons, not_or, ← ih]
    cases cutLast sep a with
    | none => simp [eq_comm]
    | some p => simp

theorem cutLast_append {b : List Char} (h : sep ∉ b) (a : List Char) :
    cutLast sep (a ++ sep :: b) = some (a, b) := by
  induction a with
  | nil => rw [List.nil_append, cutLast, cutLast_eq_none_iff.mpr h, if_pos rfl]
  | cons c a ih => rw [List.cons_append, cutLast, ih]

theorem not_mem_of_cutLast {cs b : List Char} (h : cutLast sep cs = some (a, b)) : sep ∉ b := by
  induction cs generalizing a with
  | nil => cases h
  | cons c cs ih =>
    unfold cutLast at h
    split at h
    · next hxy =>
      cases h
      exact ih hxy
    · next hn =>
      split at h
      · cases h
        exact cutLast_eq_none_iff.mp hn
      · cases h

end

theorem cutLast_eq_some_iff {sep : Char} {cs a b : List Char} :
    cutLast sep cs = some (a, b) ↔ cs = a ++ sep :: b ∧ sep ∉ b := by
  constructor
  · intro h
    exact ⟨eq_of_cutLast h, not_mem_of_cutLast h⟩
  · rintro ⟨rfl, h⟩
    exact cutLast_append h a

theorem not_mem_pieces {sep : Char} {cs p : List Char} (h : p ∈ pieces sep cs) : sep ∉ p := by
  induction cs generalizing p with
  | nil =>
    rw [pieces, List.mem_singleton] at h
    rw [h]
    exact List.not_mem_nil
  | cons c cs ih =>
    unfold pieces at h
    split at h
    · rcases List.mem_cons.mp h with rfl | h
      · exact List.not_mem_nil
      · exact ih h
    · next hc =>
      split at h
      · next hn => exact absurd hn (pieces_ne_nil sep cs)
      · next q qs hq =>
        rw [hq] at ih
        rcases List.mem_cons.mp h with rfl | h
        · intro hs
          rcases List.mem_cons.mp hs with he | hs
          · exact hc he.symm
          · exact ih List.mem_cons_self hs
        · exact ih (List.mem_cons_of_mem q h)

structure Trims (cs a : List Char) : Prop where
  around : ∃ before after, cs = before ++ a ++ after ∧
    (∀ c ∈ before, isBlank c = true) ∧ ∀ c ∈ after, isBlank c = true
  first (h : a ≠ []) : isBlank (a.head h) = false
  last (h : a ≠ []) : isBlank (a.getLast h) = false

theorem trimChars_eq (cs : List Char) :
    trimChars cs = (cs.dropWhile isBlank).rdropWhile isBlank := rfl

theorem trims_trimChars (cs : List Char) : Trims cs (trimChars cs) := by
  rw [trimChars_eq]
  constructor
  · refine ⟨cs.takeWhile isBlank, (cs.dropWhile isBlank).rtakeWhile isBlank, ?_, ?_, ?_⟩
    · rw [List.append_assoc, List.rdropWhile_append_rtakeWhile, List.takeWhile_append_dropWhile]
    · exact fun c hc => List.mem_takeWhile_imp hc
    · exact fun c hc => List.mem_rtakeWhile_imp hc
  · intro h
    have hp : (cs.dropWhile isBlank).rdropWhile isBlank <+: cs.dropWhile isBlank :=
      List.rdropWhile_prefix isBlank _
    rw [hp.head h]
    exact List.head_dropWhile_not isBlank _
  · intro h
    have hl := List.rdropWhile_last_not isBlank _ h
    simpa using hl

theorem trimChars_eq_nil {cs : List Char} : trimChars cs = [] ↔ ∀ c ∈ cs, isBlank c = true := by
  rw [trimChars_eq, List.rdropWhile_eq_nil_iff]
  constructor
  · intro h
    rw [← List.dropWhile_eq_nil_iff]
    by_contra hn
    have hb := h _ (List.head_mem hn)
    rw [List.head_dropWhile_not isBlank hn] at hb
    cases hb
  · exact fun h c hc => h c (List.dropWhile_subset isBlank hc)

/-- There is only one way to trim a text. -/
theorem Trims.eq_trimChars {cs a : List Char} (h : Trims cs a) : a = trimChars cs := by
  obtain ⟨⟨before, after, rfl, hb, ha⟩, hfirst, hlast⟩ := h
  cases a with
  | nil =>
    symm
    rw [trimChars_eq_nil]
    intro c hc
    rw [List.append_nil] at hc
    exact (List.mem_append.mp hc).elim (hb c) (ha c)
  | cons x t =>
    have hx : isBlank x = false := hfirst (List.cons_ne_nil x t)
    have hl : isBlank ((x :: t).getLast (List.cons_ne_nil x t)) = false := hlast _
    have hr : ((x :: t).reverse.dropWhile isBlank) = (x :: t).reverse := by
      rw [← List.dropLast_concat_getLast (List.cons_ne_nil x t), List.reverse_append]
      exact List.dropWhile_cons_of_neg (by simp [hl])
    rw [trimChars, List.append_assoc, List.dropWhile_append_of_pos hb, List.cons_append,
      List.dropWhile_cons_of_neg (by simp [hx]), ← List.cons_append, List.reverse_append,
      List.dropWhile_append_of_pos fun c hc => ha c (List.mem_reverse.mp hc), hr,
      List.reverse_reverse]

end TaskRelay.Text
