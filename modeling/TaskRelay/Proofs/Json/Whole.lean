import TaskRelay.Json.Printer
import TaskRelay.Json.Reader
import TaskRelay.Proofs.Json.Utf8
import TaskRelay.Proofs.Store.Number

/-!
# Whole numbers read back

The digits of a number read up to the first byte that is none give the number, as long as
it fits 64 bits. They have no zero in front, so they are a numeral, and what follows a value
inside a container is neither a point nor an exponent.
-/

set_option autoImplicit false

namespace TaskRelay.Json

def Ends (s : Bytes) : Prop := s = [] ∨ ∃ b t, s = b :: t ∧ (b = 0x2C ∨ b = 0x5D ∨ b = 0x7D)

theorem Ends.comma (s : Bytes) : Ends (0x2C :: s) := Or.inr ⟨_, s, rfl, Or.inl rfl⟩

theorem Ends.bracket (s : Bytes) : Ends (0x5D :: s) := Or.inr ⟨_, s, rfl, Or.inr (Or.inl rfl)⟩

theorem Ends.brace (s : Bytes) : Ends (0x7D :: s) := Or.inr ⟨_, s, rfl, Or.inr (Or.inr rfl)⟩

def Clear (s : Bytes) : Prop :=
  ∀ b ∈ s.head?, digit? b = none ∧ b ≠ 0x2E ∧ ¬(b = 0x65 ∨ b = 0x45)

theorem Ends.clear {s : Bytes} (h : Ends s) : Clear s := by
  intro b hb
  rcases h with rfl | ⟨c, t, rfl, hc⟩
  · cases hb
  · cases hb
    rcases hc with rfl | rfl | rfl <;> decide

theorem digit_byte {c : Char} (h : c.isDigit = true) :
    String.utf8EncodeChar c = [UInt8.ofNat c.toNat] ∧
      digit? (UInt8.ofNat c.toNat) = some (c.toNat - 48) := by
  obtain ⟨h0, h9⟩ : 48 ≤ c.toNat ∧ c.toNat ≤ 57 := by
    simpa [Char.isDigit, UInt32.le_iff_toNat_le] using h
  have ht : (UInt8.ofNat c.toNat).toNat = c.toNat := by
    rw [UInt8.toNat_ofNat']
    omega
  refine ⟨encode_ascii (by omega), ?_⟩
  have hb : 0x30 ≤ UInt8.ofNat c.toNat ∧ UInt8.ofNat c.toNat ≤ 0x39 := by
    rw [UInt8.le_iff_toNat_le, UInt8.le_iff_toNat_le, ht]
    exact ⟨h0, h9⟩
  rw [digit?, if_pos hb, ht]

theorem digits_bytes (cs : List Char) (hd : ∀ c ∈ cs, c.isDigit = true) {rest : Bytes}
    (hr : ∀ b ∈ rest.head?, digit? b = none) :
    digits (bytes cs ++ rest) = (cs.map fun c => c.toNat - 48, rest) := by
  induction cs with
  | nil =>
    cases rest with
    | nil => rfl
    | cons b t =>
      rw [bytes_nil, List.nil_append, digits, hr b rfl]
      rfl
  | cons c cs ih =>
    obtain ⟨hw, hv⟩ := digit_byte (hd c List.mem_cons_self)
    rw [bytes_cons, hw, List.append_assoc, List.singleton_append, digits, hv,
      ih fun d h => hd d (List.mem_cons_of_mem c h)]
    rfl

theorem toDigits_head {n : Nat} (hn : 0 < n) :
    ∃ c cs, Nat.toDigits 10 n = c :: cs ∧ c.toNat - 48 ≠ 0 := by
  induction n using Nat.strongRecOn with
  | _ n ih =>
    rcases Nat.lt_or_ge n 10 with h | h
    · have hc : ∀ m, m < 10 → 0 < m → m.digitChar.toNat - 48 ≠ 0 := by decide
      exact ⟨_, [], Nat.toDigits_of_lt_base h, hc n h hn⟩
    · obtain ⟨c, cs, hcs, hc⟩ := ih (n / 10) (by omega) (by omega)
      refine ⟨c, cs ++ [(n % 10).digitChar], ?_, hc⟩
      rw [Nat.toDigits_of_base_le (by decide) h, hcs, List.cons_append]

theorem ofWhole_digits (cs : List Char) (n : Nat)
    (h : Nat.ofDigitChars 10 cs n < 0x10000000000000000) :
    (cs.map fun c => c.toNat - 48).foldl Significand.pushWhole ⟨n, 0, false⟩ =
      ⟨Nat.ofDigitChars 10 cs n, 0, false⟩ := by
  induction cs generalizing n with
  | nil => rfl
  | cons c cs ih =>
    rw [Nat.ofDigitChars_cons, Nat.mul_comm] at h
    have hle := digits_ge cs (n * 10 + (c.toNat - '0'.toNat))
    have hc : n * 10 + (c.toNat - 48) < 0x10000000000000000 := Nat.lt_of_le_of_lt hle h
    rw [List.map_cons, List.foldl_cons, Significand.pushWhole, if_neg Bool.false_ne_true, if_pos hc,
      Nat.ofDigitChars_cons, Nat.mul_comm 10 n]
    exact ih _ h

theorem wholeDigits_digits (n : Nat) {rest : Bytes} (hr : Ends rest) :
    wholeDigits (bytes (Nat.toDigits 10 n) ++ rest) =
      .ok ((Nat.toDigits 10 n).map fun c => c.toNat - 48, rest) := by
  have hd : ∀ c ∈ Nat.toDigits 10 n, c.isDigit = true :=
    fun c hc => Nat.isDigit_of_mem_toDigits (by decide) (by decide) hc
  have hs := digits_bytes _ hd fun b hb => (hr.clear b hb).1
  rcases Nat.eq_zero_or_pos n with rfl | hn
  · rw [Nat.toDigits_zero] at hs ⊢
    rw [wholeDigits, someDigits, hs]
    rfl
  · obtain ⟨c, cs, hcs, hc⟩ := toDigits_head hn
    rw [hcs, List.map_cons] at hs ⊢
    rw [wholeDigits, someDigits, hs]
    simp only [bind, Except.bind]
    split
    · next he => exact absurd (List.cons.inj he).1 hc
    · rfl

theorem numeral_digits (negative : Bool) (n : Nat) {rest : Bytes} (hr : Ends rest) :
    numeral negative (bytes (Nat.toDigits 10 n) ++ rest) =
      .ok (⟨negative, (Nat.toDigits 10 n).map fun c => c.toNat - 48, none, none⟩, rest) := by
  have hf : fractionPart rest = .ok (none, rest) := by
    rcases hr with rfl | ⟨b, t, rfl, rfl | rfl | rfl⟩ <;> rfl
  have he : exponentPart rest = .ok (none, rest) := by
    rcases hr with rfl | ⟨b, t, rfl, rfl | rfl | rfl⟩ <;> rfl
  simp only [numeral, wholeDigits_digits n hr, hf, he, bind, Except.bind]

theorem number_digits (negative : Bool) {n : Nat} (hn : n < 0x10000000000000000) {rest : Bytes}
    (hr : Ends rest) :
    number negative (bytes (Nat.toDigits 10 n) ++ rest) = .ok (wholeValue negative n, rest) := by
  have ho := @Nat.ofDigitChars_ten_toDigits n
  have hw := ofWhole_digits (Nat.toDigits 10 n) 0 (ho.symm ▸ hn)
  rw [ho] at hw
  simp only [number, numeral_digits negative n hr, bind, Except.bind, Numeral.value,
    Significand.ofWhole, hw, if_neg Bool.false_ne_true]

theorem wholeChars_eq (n : Int) :
    wholeChars n = if n < 0 then '-' :: Nat.toDigits 10 n.natAbs else Nat.toDigits 10 n.natAbs := by
  cases n with
  | ofNat m =>
    rw [if_neg (by simp)]
    simp [wholeChars, toString, Int.repr, Nat.repr_eq_ofList_toDigits]
  | negSucc m =>
    rw [if_pos (by simp)]
    simp [wholeChars, toString, Int.repr, Nat.repr_eq_ofList_toDigits]

/-- A digit is none of the bytes that start another kind of value. -/
theorem digit_ne {b x : UInt8} (h : (digit? b).isSome = true)
    (hx : (digit? x).isSome = false) : b ≠ x := by
  rintro rfl
  rw [hx] at h
  cases h

theorem scalar_digit {b : UInt8} (h : (digit? b).isSome = true) (s : Bytes) :
    scalar b s = number false (b :: s) := by
  rw [scalar, if_neg (digit_ne h rfl), if_neg (digit_ne h rfl), if_neg (digit_ne h rfl),
    if_neg (digit_ne h rfl), if_pos h]

/-- A written number starts with a minus sign or a digit, and is read back. -/
theorem scalar_whole (n : WholeNumber) {rest : Bytes} (hr : Ends rest) :
    ∃ b s, bytes (wholeChars n.value) = b :: s ∧ (b = 0x2D ∨ (digit? b).isSome = true) ∧
      scalar b (s ++ rest) = .ok (.whole n, rest) := by
  obtain ⟨v, hl, hu⟩ := n
  rw [wholeChars_eq]
  rcases Int.lt_or_le v 0 with hv | hv
  · rw [if_pos hv]
    refine ⟨0x2D, bytes (Nat.toDigits 10 v.natAbs), rfl, Or.inl rfl, ?_⟩
    have hm : 0 < v.natAbs ∧ v.natAbs ≤ 0x8000000000000000 := by omega
    change number true _ = _
    rw [number_digits true (by omega) hr, wholeValue, if_pos rfl, dif_pos hm]
    have he : -(v.natAbs : Int) = v := by omega
    simp only [he]
  · rw [if_neg (Int.not_lt.mpr hv)]
    have hm : v.natAbs < 0x10000000000000000 := by omega
    have hn := number_digits false hm hr
    obtain ⟨c, cs, hcs⟩ := List.exists_cons_of_ne_nil (@Nat.toDigits_ne_nil v.natAbs 10)
    have hc : c.isDigit = true :=
      Nat.isDigit_of_mem_toDigits (by decide) (by decide) (hcs ▸ List.mem_cons_self)
    obtain ⟨hw, hv⟩ := digit_byte hc
    have hd := Option.isSome_of_eq_some hv
    rw [hcs, bytes_cons, hw] at hn ⊢
    refine ⟨_, _, rfl, Or.inr hd, ?_⟩
    rw [scalar_digit hd]
    refine hn.trans ?_
    rw [wholeValue, if_neg Bool.false_ne_true, ofNat?, dif_pos hm]
    have he : (v.natAbs : Int) = v := by omega
    simp only [he]

end TaskRelay.Json
