import Mathlib.Data.List.Basic
import TaskRelay.Proofs.Text.Integers
import TaskRelay.Store.Log

/-!
# Numbers of entries and their identifiers

An identifier names the entry that it was made for and no other. Read back it
gives the number, unless the number has outgrown 64 bits.
-/

set_option autoImplicit false

namespace TaskRelay

open Text

theorem natural_digits (limit n : Nat) :
    natural limit (String.ofList (Nat.toDigits 10 n)) =
      if n ≤ limit then .ok n else .error .tooLarge := by
  have hd : ∀ c ∈ Nat.toDigits 10 n, c.isDigit = true :=
    fun c hc => Nat.isDigit_of_mem_toDigits (by decide) (by decide) hc
  have hr := appendDigits_digits limit .tooLarge (Nat.toDigits 10 n) 0 hd (Nat.zero_le _)
  rw [Nat.ofDigitChars_ten_toDigits] at hr
  unfold natural
  rw [String.toList_ofList]
  split
  · next h => exact absurd h Nat.toDigits_ne_nil
  · next h => simp [h] at hd
  · next cs h => simp [h] at hd
  · exact hr

theorem entryId_digits (n : Nat) :
    (entryId n).toList.takeWhile (· ≠ '-') = Nat.toDigits 10 n := by
  have hd : ∀ c ∈ Nat.toDigits 10 n, decide (c ≠ '-') = true := by
    intro c hc
    have h := Nat.isDigit_of_mem_toDigits (by decide) (by decide) hc
    simp only [ne_eq, decide_eq_true_eq]
    rintro rfl
    simp at h
  have hl : (entryId n).toList = Nat.toDigits 10 n ++ ['-', '0'] := by
    simp [entryId, Nat.toString_eq_repr]
  rw [hl, List.takeWhile_append_of_pos hd]
  simp

theorem entryNumber_entryId (n : Nat) :
    entryNumber? (entryId n) = if n ≤ maxU64 then some n else none := by
  unfold entryNumber?
  rw [entryId_digits, natural_digits]
  split <;> rfl

theorem entryId_injective : Function.Injective entryId := by
  intro m n h
  have hd : Nat.toDigits 10 m = Nat.toDigits 10 n := by
    rw [← entryId_digits, ← entryId_digits, h]
  rw [← @Nat.ofDigitChars_ten_toDigits m, hd, Nat.ofDigitChars_ten_toDigits]

theorem entryId_mem {bs : List (Nat × Fields)} {n : Nat} :
    entryId n ∈ (bs.map numbered).map Entry.id ↔ n ∈ bs.map Prod.fst := by
  have he : (bs.map numbered).map Entry.id = (bs.map Prod.fst).map entryId := by simp [numbered]
  rw [he, List.mem_map_of_injective entryId_injective]

end TaskRelay
