import TaskRelay.Proofs.Json.Utf8
import TaskRelay.Text.Percent

/-!
# Percent encoding undone

Of an encoded text every character is a letter, a digit, one of `- . _ ~` or a percent sign,
whatever the text was. Decoding meets a percent sign only where the encoding has written one,
with two digits behind it, so it gives back the bytes of the text.
-/

set_option autoImplicit false

namespace TaskRelay.Text

open Json (bytes)

def isEncoded (c : Char) : Bool := c.isAlphanum || "-._~%".toList.contains c

theorem isEncoded_unreserved : ∀ n, n < 256 → isUnreserved (UInt8.ofNat n) = true →
    isEncoded (Char.ofNat n) = true ∧ (Char.ofNat n).toNat = n ∧ n < 128 ∧ n ≠ 37 := by
  decide +kernel

theorem isEncoded_hexDigit : ∀ n, n < 16 → isEncoded (upperHexDigit n) = true ∧
    (upperHexDigit n).toNat < 128 := by
  decide

theorem isEncoded_percentByte (b : UInt8) : ∀ c ∈ percentByte b, isEncoded c = true := by
  have hb := b.toNat_lt
  intro c hc
  unfold percentByte at hc
  split at hc
  · next hu =>
    rw [List.mem_singleton] at hc
    rw [hc]
    exact (isEncoded_unreserved b.toNat hb (by rwa [UInt8.ofNat_toNat])).1
  · simp only [List.mem_cons, List.not_mem_nil, or_false] at hc
    rcases hc with rfl | rfl | rfl
    · rfl
    · exact (isEncoded_hexDigit _ (by omega)).1
    · exact (isEncoded_hexDigit _ (by omega)).1

theorem percentDecode_cons {b : UInt8} (h : b ≠ 0x25) (rest : List UInt8) :
    percentDecode (b :: rest) = b :: percentDecode rest := by
  rw [percentDecode]
  exact fun _ _ _ he _ => h he

theorem upperHexDigit_byte {n : Nat} (h : n < 16) :
    String.utf8EncodeChar (upperHexDigit n) = [UInt8.ofNat (upperHexDigit n).toNat] ∧
      hexDigit? (Char.ofNat (UInt8.ofNat (upperHexDigit n).toNat).toNat) = some n := by
  have ha := (isEncoded_hexDigit n h).2
  refine ⟨Json.encode_ascii ha, ?_⟩
  rw [UInt8.toNat_ofNat', Nat.mod_eq_of_lt (by omega), Char.ofNat_toNat]
  exact hexDigit?_upperHexDigit n h

/-- An encoded byte is read back, whatever follows. -/
theorem percentDecode_percentByte (b : UInt8) (rest : List UInt8) :
    percentDecode (bytes (percentByte b) ++ rest) = b :: percentDecode rest := by
  have hb := b.toNat_lt
  unfold percentByte
  split
  · next hu =>
    obtain ⟨-, hc, ha, hp⟩ := isEncoded_unreserved b.toNat hb (by rwa [UInt8.ofNat_toNat])
    rw [Json.bytes_cons, Json.encode_ascii (by omega), hc, UInt8.ofNat_toNat]
    exact percentDecode_cons (fun he => hp (by rw [he]; rfl)) rest
  · obtain ⟨hx, hx'⟩ := upperHexDigit_byte (n := b.toNat / 16) (by omega)
    obtain ⟨hy, hy'⟩ := upperHexDigit_byte (n := b.toNat % 16) (by omega)
    have hd : 16 * (b.toNat / 16) + b.toNat % 16 = b.toNat := by omega
    have hm : String.utf8EncodeChar '%' = [0x25] := rfl
    simp only [Json.bytes_cons, Json.bytes_nil, hm, hx, hy, List.cons_append, List.nil_append]
    rw [percentDecode, hx', hy']
    simp only [hd, UInt8.ofNat_toNat]

theorem percentDecode_flatMap (bs : List UInt8) :
    percentDecode (bytes (bs.flatMap percentByte)) = bs := by
  induction bs with
  | nil => rfl
  | cons b bs ih => rw [List.flatMap_cons, Json.bytes_append, percentDecode_percentByte, ih]

theorem percentDecode_percentEncode (s : String) :
    percentDecode (percentEncode s).toUTF8.toList = s.toUTF8.toList := by
  rw [percentEncode, Json.toUTF8_bytes, percentDecode_flatMap]

theorem isEncoded_percentEncode (s : String) :
    ∀ c ∈ (percentEncode s).toList, isEncoded c = true := by
  intro c hc
  rw [percentEncode, String.toList_ofList] at hc
  obtain ⟨b, -, hb⟩ := List.mem_flatMap.mp hc
  exact isEncoded_percentByte b c hb

end TaskRelay.Text
