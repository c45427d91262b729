import TaskRelay.Json.Printer
import TaskRelay.Proofs.Json.Utf8

/-!
# Strings read back

A quoted text read after its opening quote gives the text, whatever characters it has. A
character is either escaped, and one step of the reader takes the whole escape, or it is
written as its own bytes, none of which ends the string or starts an escape.
-/

set_option autoImplicit false

namespace TaskRelay.Json

open Text

def Ordinary (b : UInt8) : Prop := b ≠ 0x22 ∧ b ≠ 0x5C ∧ ¬b < 0x20

theorem stringBytes_ordinary (bs : Bytes) (hb : ∀ b ∈ bs, Ordinary b) (fuel : Nat)
    (content rest : Bytes) :
    stringBytes (bs.length + fuel) content (bs ++ rest) =
      stringBytes fuel (bs.reverse ++ content) rest := by
  induction bs generalizing content with
  | nil => rw [List.length_nil, Nat.zero_add]; rfl
  | cons b bs ih =>
    obtain ⟨hq, he, hc⟩ := hb b List.mem_cons_self
    have hl : (b :: bs).length + fuel = bs.length + fuel + 1 := by
      rw [List.length_cons]
      omega
    rw [hl, List.cons_append, stringBytes, if_neg hq, if_neg he, if_neg hc,
      ih (fun x hx => hb x (List.mem_cons_of_mem b hx)), List.reverse_cons, List.append_assoc]
    rfl

/-- One step takes a whole escape. -/
theorem stringBytes_unescape {s cs rest : Bytes} (fuel : Nat) (content : Bytes)
    (h : unescape s = .ok (cs, rest)) :
    stringBytes (fuel + 1) content (0x5C :: s) =
      stringBytes fuel (cs.reverse ++ content) rest := by
  have hq : ¬(0x5C : UInt8) = 0x22 := by decide
  rw [stringBytes, if_neg hq, if_pos rfl, h]
  rfl

/-- A character that is neither a quote nor a backslash nor a control character is written as
its own bytes. -/
theorem ordinary_bytes {c : Char} (hq : c ≠ '"') (he : c ≠ '\\') (hc : ¬c.toNat < 0x20) :
    ∀ b ∈ String.utf8EncodeChar c, Ordinary b := by
  intro b hb
  rcases Nat.lt_or_ge c.toNat 0x80 with ha | ha
  · rw [encode_ascii ha, List.mem_singleton] at hb
    subst hb
    have ht : (UInt8.ofNat c.toNat).toNat = c.toNat := by
      rw [UInt8.toNat_ofNat']
      omega
    refine ⟨fun h => hq ?_, fun h => he ?_, fun h => hc ?_⟩
    · rw [← Char.ofNat_toNat c, ← ht, h]
      rfl
    · rw [← Char.ofNat_toNat c, ← ht, h]
      rfl
    · rwa [UInt8.lt_iff_toNat_lt, ht] at h
  · have h80 := encode_beyond ha b hb
    rw [UInt8.le_iff_toNat_le] at h80
    change 128 ≤ b.toNat at h80
    refine ⟨?_, ?_, ?_⟩
    · rintro rfl
      exact absurd h80 (by decide)
    · rintro rfl
      exact absurd h80 (by decide)
    · rw [UInt8.lt_iff_toNat_lt]
      change ¬b.toNat < 32
      omega

structure Escaped (c : Char) (e : Bytes) : Prop where
  written : bytes (escape c) = 0x5C :: e
  read : ∀ rest, unescape (e ++ rest) = .ok (String.utf8EncodeChar c, rest)

theorem Escaped.stringBytes {c : Char} {e : Bytes} (h : Escaped c e) (fuel : Nat)
    (content rest : Bytes) :
    stringBytes (fuel + 1) content (bytes (escape c) ++ rest) =
      stringBytes fuel ((String.utf8EncodeChar c).reverse ++ content) rest := by
  rw [h.written]
  exact stringBytes_unescape fuel content (h.read rest)

theorem hexDigit_ascii : ∀ n, n < 16 → (hexDigit n).toNat < 0x80 := by decide

theorem hexDigit_byte : ∀ n, n < 16 →
    Char.ofNat (UInt8.ofNat (hexDigit n).toNat).toNat = hexDigit n := by decide

theorem hexNumber_pair {a b : Nat} (ha : a < 16) (hb : b < 16) :
    hexNumber? ['0', '0', hexDigit a, hexDigit b] = some (16 * a + b) := by
  have h0 : hexDigit? '0' = some 0 := by decide
  simp [hexNumber?, h0, hexDigit?_hexDigit a ha, hexDigit?_hexDigit b hb]

theorem escaped_control {c : Char} (hc : c.toNat < 0x20)
    (he : escape c = ['\\', 'u', '0', '0', hexDigit (c.toNat / 16), hexDigit (c.toNat % 16)]) :
    ∃ e, Escaped c e := by
  have ha : c.toNat / 16 < 16 := by omega
  have hb : c.toNat % 16 < 16 := by omega
  refine ⟨[0x75, 0x30, 0x30, UInt8.ofNat (hexDigit (c.toNat / 16)).toNat,
    UInt8.ofNat (hexDigit (c.toNat % 16)).toNat], ?_, fun rest => ?_⟩
  · rw [he, bytes_cons, bytes_cons, bytes_cons, bytes_cons, bytes_cons, bytes_cons,
      encode_ascii (hexDigit_ascii _ ha), encode_ascii (hexDigit_ascii _ hb)]
    rfl
  · have hn : 16 * (c.toNat / 16) + c.toNat % 16 = c.toNat := by omega
    have hw : hexWord (0x30 :: 0x30 :: UInt8.ofNat (hexDigit (c.toNat / 16)).toNat ::
        UInt8.ofNat (hexDigit (c.toNat % 16)).toNat :: rest) = .ok (c.toNat, rest) := by
      have hm : ([0x30, 0x30, UInt8.ofNat (hexDigit (c.toNat / 16)).toNat,
            UInt8.ofNat (hexDigit (c.toNat % 16)).toNat].map fun x => Char.ofNat x.toNat) =
          ['0', '0', hexDigit (c.toNat / 16), hexDigit (c.toNat % 16)] := by
        simp only [List.map_cons, List.map_nil, hexDigit_byte _ ha, hexDigit_byte _ hb]
        rfl
      rw [hexWord, hm, hexNumber_pair ha hb, hn]
    have hu : simpleEscape? 0x75 = none := by decide
    have hx : ¬((0x75 : UInt8) ≠ 0x75) := by decide
    change unescape (0x75 :: 0x30 :: 0x30 :: _ :: _ :: rest) = _
    rw [unescape, hu]
    simp only [if_neg hx, hw, bind, Except.bind]
    rw [if_neg (by omega), if_neg (by omega), Char.ofNat_toNat]

theorem escaped_or_ordinary (c : Char) :
    (∃ e, Escaped c e) ∨ escape c = [c] ∧ ∀ b ∈ String.utf8EncodeChar c, Ordinary b := by
  by_cases hs : c ∈ ['"', '\\', '\x08', '\x0c', '\n', '\r', '\t']
  · left
    simp only [List.mem_cons, List.not_mem_nil, or_false] at hs
    rcases hs with rfl | rfl | rfl | rfl | rfl | rfl | rfl <;> exact ⟨_, rfl, fun rest => rfl⟩
  · simp only [List.mem_cons, List.not_mem_nil, or_false, not_or] at hs
    obtain ⟨h₁, h₂, h₃, h₄, h₅, h₆, h₇⟩ := hs
    have he : escape c = if c.toNat < 0x20 then
        ['\\', 'u', '0', '0', hexDigit (c.toNat / 16), hexDigit (c.toNat % 16)] else [c] := by
      rw [escape, if_neg h₁, if_neg h₂, if_neg h₃, if_neg h₄, if_neg h₅, if_neg h₆, if_neg h₇]
    by_cases hc : c.toNat < 0x20
    · exact Or.inl (escaped_control hc (by rw [he, if_pos hc]))
    · exact Or.inr ⟨by rw [he, if_neg hc], ordinary_bytes h₁ h₂ hc⟩

theorem stringBytes_escape (cs : List Char) (content rest : Bytes) (fuel : Nat)
    (hf : (bytes (cs.flatMap escape)).length < fuel) :
    stringBytes fuel content (bytes (cs.flatMap escape) ++ 0x22 :: rest) =
      .ok ((bytes cs).reverse ++ content, rest) := by
  induction cs generalizing content fuel with
  | nil =>
    obtain ⟨fuel, rfl⟩ := Nat.exists_eq_succ_of_ne_zero (Nat.ne_of_gt hf)
    exact if_pos rfl
  | cons c cs ih =>
    rw [List.flatMap_cons, bytes_append, List.length_append] at hf
    rw [List.flatMap_cons, bytes_append, List.append_assoc, bytes_cons, List.reverse_append,
      List.append_assoc]
    rcases escaped_or_ordinary c with ⟨e, he⟩ | ⟨hw, hb⟩
    · obtain ⟨fuel, rfl⟩ : ∃ n, fuel = n + 1 := ⟨fuel - 1, by omega⟩
      have hl : 0 < (bytes (escape c)).length := by
        rw [he.written]
        exact Nat.succ_pos _
      rw [he.stringBytes]
      exact ih _ fuel (by omega)
    · have hl : bytes (escape c) = String.utf8EncodeChar c := by
        rw [hw, bytes_cons, bytes_nil, List.append_nil]
      rw [hl] at hf ⊢
      have hle : (String.utf8EncodeChar c).length ≤ fuel := by omega
      obtain ⟨fuel, rfl⟩ := Nat.exists_eq_add_of_le hle
      rw [stringBytes_ordinary _ hb]
      exact ih _ fuel (by omega)

theorem bytes_quote (s : String) :
    bytes (quote s) = 0x22 :: (bytes (s.toList.flatMap escape) ++ [0x22]) := by
  rw [quote, bytes_cons, bytes_append]
  rfl

/-- A quoted text, read after its opening quote, gives the text. -/
theorem string_quote (s : String) (rest : Bytes) :
    string (bytes (s.toList.flatMap escape) ++ 0x22 :: rest) = .ok (s, rest) := by
  have hb := stringBytes_escape s.toList [] rest
    ((bytes (s.toList.flatMap escape) ++ 0x22 :: rest).length + 1) (by
      rw [List.length_append]
      omega)
  rw [string, hb, List.append_nil]
  simp only [bind, Except.bind]
  rw [List.reverse_reverse, fromUTF8_bytes]

end TaskRelay.Json
