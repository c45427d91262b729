import Mathlib.Data.List.Basic
import TaskRelay.Text.Integer

/-!
# Whole numbers as settings write them

A whole number is an optional sign and decimal digits, at least one of them and nothing else.
The reader accepts exactly the texts of that form whose number lies within the limit, and gives
that number.
-/

set_option autoImplicit false

namespace TaskRelay

open Text

theorem digit_value {c : Char} (h : c.isDigit = true) : digit? c = some (c.toNat - '0'.toNat) := by
  obtain ⟨h0, h9⟩ : 48 ≤ c.val ∧ c.val ≤ 57 := by simpa [Char.isDigit] using h
  exact if_pos ⟨h0, h9⟩

theorem digits_ge (cs : List Char) (n : Nat) : n ≤ Nat.ofDigitChars 10 cs n := by
  induction cs generalizing n with
  | nil => simp
  | cons c cs ih =>
    rw [Nat.ofDigitChars_cons]
    have h := ih (10 * n + (c.toNat - '0'.toNat))
    omega

/-- Digits read from the left give their number if it stays within the limit. -/
theorem appendDigits_digits (limit : Nat) (f : IntegerFault) (cs : List Char) (n : Nat)
    (hd : ∀ c ∈ cs, c.isDigit = true) (hn : n ≤ limit) :
    appendDigits limit f n cs =
      if Nat.ofDigitChars 10 cs n ≤ limit then .ok (Nat.ofDigitChars 10 cs n) else .error f := by
  induction cs generalizing n with
  | nil => simp [appendDigits, hn]
  | cons c cs ih =>
    have hc := digit_value (hd c (by simp))
    rw [appendDigits, hc, Nat.ofDigitChars_cons, Nat.mul_comm 10 n]
    by_cases hle : n * 10 + (c.toNat - '0'.toNat) ≤ limit
    · simp only [hle, if_true]
      exact ih _ (fun d h => hd d (by simp [h])) hle
    · have hge := digits_ge cs (n * 10 + (c.toNat - '0'.toNat))
      simp only [hle, if_false]
      rw [if_neg (by omega)]

namespace Text

structure Denotes (ds : List Char) (n : Nat) : Prop where
  some : ds ≠ []
  digits : ∀ c ∈ ds, c.isDigit = true
  value : Nat.ofDigitChars 10 ds 0 = n

theorem isDigit_of_value {c : Char} {d : Nat} (h : digit? c = some d) : c.isDigit = true := by
  unfold digit? at h
  split at h
  · next hc => simpa [Char.isDigit, Char.le_def, UInt32.le_iff_toNat_le] using hc
  · cases h

theorem digits_of_appendDigits {limit : Nat} {f : IntegerFault} {cs : List Char} {m n : Nat}
    (h : appendDigits limit f m cs = .ok n) : ∀ c ∈ cs, c.isDigit = true := by
  induction cs generalizing m with
  | nil => simp
  | cons c cs ih =>
    rw [appendDigits] at h
    cases hc : digit? c with
    | none => simp [hc] at h
    | some d =>
      simp only [hc] at h
      split at h
      · intro e he
        rcases List.mem_cons.mp he with rfl | he
        · exact isDigit_of_value hc
        · exact ih h e he
      · cases h

theorem appendDigits_ok_iff {limit : Nat} {f : IntegerFault} {ds : List Char} {n : Nat}
    (hs : ds ≠ []) : appendDigits limit f 0 ds = .ok n ↔ Denotes ds n ∧ n ≤ limit := by
  constructor
  · intro h
    have hd := digits_of_appendDigits h
    rw [appendDigits_digits limit f ds 0 hd (Nat.zero_le _)] at h
    split at h
    · next hle =>
      cases h
      exact ⟨⟨hs, hd, rfl⟩, hle⟩
    · cases h
  · rintro ⟨hn, hle⟩
    rw [appendDigits_digits limit f ds 0 hn.digits (Nat.zero_le _), hn.value, if_pos hle]

theorem Denotes.unsigned {ds cs : List Char} {n : Nat} (h : Denotes ds n) :
    ds ≠ '+' :: cs ∧ ds ≠ '-' :: cs := by
  constructor <;> rintro rfl
  · exact absurd (h.digits '+' List.mem_cons_self) (by decide)
  · exact absurd (h.digits '-' List.mem_cons_self) (by decide)

def Writes (cs : List Char) (n : Nat) : Prop :=
  ∃ ds, (cs = ds ∨ cs = '+' :: ds) ∧ Denotes ds n

def WritesSigned (cs : List Char) (z : Int) : Prop :=
  (∃ n : Nat, Writes cs n ∧ z = n) ∨ ∃ ds, ∃ n : Nat, cs = '-' :: ds ∧ Denotes ds n ∧ z = -n

section
variable {limit n : Nat} {s : String} {ds : List Char}

theorem natural_plus (h : s.toList = '+' :: ds) (hs : ds ≠ []) :
    natural limit s = appendDigits limit .tooLarge 0 ds := by
  obtain ⟨d, ds, rfl⟩ := List.exists_cons_of_ne_nil hs
  rw [natural, h]
  rfl

theorem natural_bare (h : s.toList = ds) (hn : Denotes ds n) :
    natural limit s = appendDigits limit .tooLarge 0 ds := by
  unfold natural
  rw [h]
  split
  · exact absurd rfl hn.some
  · exact absurd rfl hn.unsigned.1
  · exact absurd rfl hn.unsigned.1
  · rfl

theorem natural_ok_iff : natural limit s = .ok n ↔ Writes s.toList n ∧ n ≤ limit := by
  constructor
  · intro h
    unfold natural at h
    split at h
    · cases h
    · cases h
    · next ds hs hl =>
      obtain ⟨hn, hle⟩ := (appendDigits_ok_iff hs).mp h
      exact ⟨⟨ds, Or.inr hl, hn⟩, hle⟩
    · next hs _ _ =>
      obtain ⟨hn, hle⟩ := (appendDigits_ok_iff hs).mp h
      exact ⟨⟨s.toList, Or.inl rfl, hn⟩, hle⟩
  · rintro ⟨⟨ds, hl | hl, hn⟩, hle⟩
    · rw [natural_bare hl hn, appendDigits_ok_iff hn.some]
      exact ⟨hn, hle⟩
    · rw [natural_plus hl hn.some, appendDigits_ok_iff hn.some]
      exact ⟨hn, hle⟩

theorem integer_plus (h : s.toList = '+' :: ds) (hs : ds ≠ []) :
    integer limit s = (appendDigits limit .tooLarge 0 ds).map Int.ofNat := by
  obtain ⟨d, ds, rfl⟩ := List.exists_cons_of_ne_nil hs
  rw [integer, h]
  rfl

theorem negated_eq {ε : Type} (x : Except ε Nat) :
    Except.map (fun n : Int => -n) (x >>= fun n => pure (n : Int)) =
      x.map fun n => -Int.ofNat n := by
  cases x <;> rfl

theorem integer_minus (h : s.toList = '-' :: ds) (hs : ds ≠ []) :
    integer limit s = (appendDigits (limit + 1) .tooSmall 0 ds).map fun n => -Int.ofNat n := by
  obtain ⟨d, ds, rfl⟩ := List.exists_cons_of_ne_nil hs
  rw [integer, h]
  exact negated_eq _

theorem integer_bare (h : s.toList = ds) (hn : Denotes ds n) :
    integer limit s = (appendDigits limit .tooLarge 0 ds).map Int.ofNat := by
  unfold integer
  rw [h]
  split
  · exact absurd rfl hn.some
  · exact absurd rfl hn.unsigned.1
  · exact absurd rfl hn.unsigned.2
  · exact absurd rfl hn.unsigned.1
  · exact absurd rfl hn.unsigned.2
  · rfl

theorem map_ok_iff {α β ε : Type} {x : Except ε α} {f : α → β} {b : β} :
    x.map f = .ok b ↔ ∃ a, x = .ok a ∧ f a = b := by
  cases x <;> simp [Except.map]

theorem integer_ok_iff {z : Int} :
    integer limit s = .ok z ↔ WritesSigned s.toList z ∧ -(limit + 1) ≤ z ∧ z ≤ limit := by
  constructor
  · intro h
    unfold integer at h
    split at h
    · cases h
    · cases h
    · cases h
    · next ds hs hl =>
      obtain ⟨n, hd, rfl⟩ := map_ok_iff.mp h
      obtain ⟨hn, hle⟩ := (appendDigits_ok_iff hs).mp hd
      exact ⟨Or.inl ⟨n, ⟨ds, Or.inr hl, hn⟩, rfl⟩, by rw [Int.ofNat_eq_natCast]; omega⟩
    · next ds hs hl =>
      obtain ⟨n, hd, rfl⟩ := map_ok_iff.mp ((negated_eq _).symm.trans h)
      obtain ⟨hn, hle⟩ := (appendDigits_ok_iff hs).mp hd
      exact ⟨Or.inr ⟨ds, n, hl, hn, rfl⟩, by rw [Int.ofNat_eq_natCast]; omega⟩
    · next hs _ _ _ _ =>
      obtain ⟨n, hd, rfl⟩ := map_ok_iff.mp h
      obtain ⟨hn, hle⟩ := (appendDigits_ok_iff hs).mp hd
      exact ⟨Or.inl ⟨n, ⟨s.toList, Or.inl rfl, hn⟩, rfl⟩, by rw [Int.ofNat_eq_natCast]; omega⟩
  · rintro ⟨⟨n, ⟨ds, hl | hl, hn⟩, rfl⟩ | ⟨ds, n, hl, hn, rfl⟩, hlow, hhigh⟩
    · rw [integer_bare hl hn, (appendDigits_ok_iff hn.some).mpr ⟨hn, by omega⟩]
      rfl
    · rw [integer_plus hl hn.some, (appendDigits_ok_iff hn.some).mpr ⟨hn, by omega⟩]
      rfl
    · rw [integer_minus hl hn.some, (appendDigits_ok_iff hn.some).mpr ⟨hn, by omega⟩]
      rfl

end

end Text

end TaskRelay
