import TaskRelay.Json.Scanner

/-!
# The bytes of a text

A text travels as the bytes of its characters, one character after the other. A
character below U+0080 is one byte, its own number; every byte of any other lies above
all of these. So the bytes that delimit values never occur inside a character.
-/

set_option autoImplicit false

namespace TaskRelay.Json

def bytes (cs : List Char) : Bytes := cs.flatMap String.utf8EncodeChar

@[simp]
theorem bytes_nil : bytes [] = [] := rfl

@[simp]
theorem bytes_append (cs ds : List Char) : bytes (cs ++ ds) = bytes cs ++ bytes ds :=
  List.flatMap_append

@[simp]
theorem bytes_cons (c : Char) (cs : List Char) :
    bytes (c :: cs) = String.utf8EncodeChar c ++ bytes cs :=
  List.flatMap_cons

theorem toList_loop (b : ByteArray) (i : Nat) (r : List UInt8) :
    ByteArray.toList.loop b i r = r.reverse ++ b.data.toList.drop i := by
  induction i, r using ByteArray.toList.loop.induct b with
  | case1 i r hi ih =>
    have hl : i < b.data.toList.length := hi
    have hg : b.get! i = b.data.toList[i] := by
      rw [Array.getElem_toList]
      exact getElem!_pos b.data i hi
    rw [ByteArray.toList.loop, if_pos hi, ih, hg, List.drop_eq_getElem_cons hl, List.reverse_cons,
      List.append_assoc, List.singleton_append]
  | case2 i r hi =>
    have hl : b.data.toList.length ≤ i := Nat.le_of_not_lt hi
    rw [ByteArray.toList.loop, if_neg hi, List.drop_eq_nil_of_le hl, List.append_nil]

theorem toUTF8_bytes (cs : List Char) : (String.ofList cs).toUTF8.toList = bytes cs := by
  have hd : (String.ofList cs).toUTF8.data.toList = bytes cs := by
    rw [String.toUTF8_eq_toByteArray, String.toByteArray_ofList, List.utf8Encode,
      List.toList_data_toByteArray]
    rfl
  rw [ByteArray.toList, toList_loop, hd]
  rfl

theorem utf8_bytes (s : String) : s.toUTF8.toList = bytes s.toList := by
  rw [← toUTF8_bytes, String.ofList_toList]

theorem fromUTF8_bytes (s : String) : String.fromUTF8? (bytes s.toList).toByteArray = some s := by
  have hb : (bytes s.toList).toByteArray = s.toByteArray := by
    rw [← String.ofList_toList (s := s), String.toByteArray_ofList, String.toList_ofList]
    rfl
  have hv : (bytes s.toList).toByteArray.IsValidUTF8 := hb ▸ s.isValidUTF8
  unfold String.fromUTF8?
  rw [dif_pos hv, Option.some.injEq, ← String.toByteArray_inj]
  exact hb

theorem byteArray_toList (b : ByteArray) : b.toList = b.data.toList := by
  rw [ByteArray.toList, toList_loop]
  rfl

/-- The texts that are read are those that are written as the bytes. -/
theorem fromUTF8_eq_some_iff {s : Bytes} {t : String} :
    String.fromUTF8? ⟨s.toArray⟩ = some t ↔ s = t.toUTF8.toList := by
  constructor
  · intro h
    unfold String.fromUTF8? at h
    split at h
    · rw [Option.some.injEq] at h
      rw [← h, byteArray_toList]
      rfl
    · cases h
  · rintro rfl
    have hb : (⟨t.toUTF8.toList.toArray⟩ : ByteArray) = t.toByteArray := by
      rw [byteArray_toList]
      rfl
    have hv : (⟨t.toUTF8.toList.toArray⟩ : ByteArray).IsValidUTF8 := hb ▸ t.isValidUTF8
    unfold String.fromUTF8?
    rw [dif_pos hv, Option.some.injEq, ← String.toByteArray_inj]
    exact hb

section
variable {c : Char}

theorem encode_ascii (h : c.toNat < 0x80) : String.utf8EncodeChar c = [UInt8.ofNat c.toNat] := by
  have hc : c.val.toNat ≤ 127 := Nat.le_of_lt_succ h
  rw [String.utf8EncodeChar, if_pos hc]
  rfl

theorem encode_beyond (h : 0x80 ≤ c.toNat) : ∀ b ∈ String.utf8EncodeChar c, 0x80 ≤ b := by
  have hc : ¬c.val.toNat ≤ 127 := Nat.not_le_of_lt h
  have marked (n k m : Nat) (hk : 0 < k) (hm : 128 ≤ m) (hs : k + m ≤ 256) :
      (0x80 : UInt8) ≤ UInt8.ofNat (n % k + m) := by
    have hr := Nat.mod_lt n hk
    rw [UInt8.le_iff_toNat_le, UInt8.toNat_ofNat']
    change 128 ≤ (n % k + m) % 256
    omega
  intro b hb
  rw [String.utf8EncodeChar, if_neg hc] at hb
  split at hb
  · simp only [List.mem_cons, List.not_mem_nil, or_false] at hb
    rcases hb with rfl | rfl <;> exact marked _ _ _ (by decide) (by decide) (by decide)
  · split at hb
    · simp only [List.mem_cons, List.not_mem_nil, or_false] at hb
      rcases hb with rfl | rfl | rfl <;> exact marked _ _ _ (by decide) (by decide) (by decide)
    · simp only [List.mem_cons, List.not_mem_nil, or_false] at hb
      rcases hb with rfl | rfl | rfl | rfl <;>
        exact marked _ _ _ (by decide) (by decide) (by decide)

end

theorem bytes_eq_nil {cs : List Char} (h : bytes cs = []) : cs = [] := by
  cases cs with
  | nil => rfl
  | cons c cs =>
    rw [bytes_cons, List.append_eq_nil_iff] at h
    exact absurd h.1 String.utf8EncodeChar_ne_nil

theorem encode_byte {c : Char} (h : c.toNat < 0x80) :
    Char.ofNat (UInt8.ofNat c.toNat).toNat = c := by
  rw [UInt8.toNat_ofNat', Nat.mod_eq_of_lt (by omega), Char.ofNat_toNat]

/-- A byte below 128 among the bytes of a text is a character of its own: the text can be cut
before and behind it. -/
theorem bytes_cut {cs : List Char} {s t : Bytes} {b : UInt8} (hb : b < 0x80)
    (h : bytes cs = s ++ b :: t) :
    ∃ before after, cs = before ++ Char.ofNat b.toNat :: after ∧ bytes before = s ∧
      bytes after = t := by
  induction cs generalizing s with
  | nil => simp at h
  | cons c cs ih =>
    rw [bytes_cons] at h
    rcases Nat.lt_or_ge c.toNat 0x80 with ha | ha
    · rw [encode_ascii ha] at h
      cases s with
      | nil =>
        obtain ⟨rfl, ht⟩ := List.cons.inj h
        exact ⟨[], cs, by rw [encode_byte ha]; rfl, rfl, ht⟩
      | cons x s =>
        obtain ⟨rfl, ht⟩ := List.cons.inj h
        obtain ⟨before, after, rfl, rfl, hat⟩ := ih ht
        exact ⟨c :: before, after, rfl, by rw [bytes_cons, encode_ascii ha]; rfl, hat⟩
    · rcases List.append_eq_append_iff.mp h with ⟨s', rfl, ht⟩ | ⟨t', he, ht⟩
      · obtain ⟨before, after, rfl, rfl, hat⟩ := ih ht
        exact ⟨c :: before, after, rfl, bytes_cons c before, hat⟩
      · cases t' with
        | nil =>
          obtain ⟨before, after, rfl, hbe, hat⟩ := ih (s := []) ht.symm
          refine ⟨c :: before, after, rfl, ?_, hat⟩
          rw [bytes_cons, hbe, List.append_nil, he, List.append_nil]
        | cons x t' =>
          obtain ⟨rfl, -⟩ := List.cons.inj ht
          have hm : b ∈ String.utf8EncodeChar c := by
            rw [he]
            exact List.mem_append_right s List.mem_cons_self
          exact absurd hb (UInt8.not_lt.mpr (encode_beyond ha b hm))

theorem encode_eq {c : Char} (h : c.toNat < 0x80) : ∃ b : UInt8, b < 0x80 ∧
    String.utf8EncodeChar c = [b] ∧ Char.ofNat b.toNat = c := by
  refine ⟨_, ?_, encode_ascii h, encode_byte h⟩
  rw [UInt8.lt_iff_toNat_lt, UInt8.toNat_ofNat']
  exact Nat.lt_of_le_of_lt (Nat.mod_le _ _) h

/-- A text can be cut before and behind a text of characters of one byte each that stands among
its bytes. -/
theorem bytes_cut_text (cs : List Char) {mark : List Char} (hm : mark ≠ [])
    (ha : ∀ c ∈ mark, c.toNat < 0x80) {s t : Bytes} (h : bytes cs = s ++ (bytes mark ++ t)) :
    ∃ before after, cs = before ++ (mark ++ after) ∧ bytes before = s ∧ bytes after = t := by
  induction mark generalizing cs s with
  | nil => exact absurd rfl hm
  | cons c mark ih =>
    obtain ⟨b, hb, he, hc⟩ := encode_eq (ha c List.mem_cons_self)
    rw [bytes_cons, he, List.append_assoc, List.singleton_append] at h
    obtain ⟨before, after, rfl, rfl, hat⟩ := bytes_cut hb h
    rw [hc]
    cases mark with
    | nil => exact ⟨before, after, rfl, rfl, hat⟩
    | cons d mark =>
      have hd : ∀ x ∈ d :: mark, x.toNat < 0x80 := fun x hx => ha x (List.mem_cons_of_mem c hx)
      obtain ⟨between, after, rfl, hbe, hat⟩ := ih _ (s := []) (List.cons_ne_nil d mark) hd hat
      rw [bytes_eq_nil hbe]
      exact ⟨before, after, rfl, rfl, hat⟩

theorem bytes_front {cs ds : List Char} (h : cs <+: ds) : bytes cs <+: bytes ds := by
  obtain ⟨rest, rfl⟩ := h
  exact ⟨bytes rest, (bytes_append cs rest).symm⟩

/-- Of two fronts of one text the one with fewer characters has fewer bytes. -/
theorem bytes_length_le_iff {cs p q : List Char} (hp : p <+: cs) (hq : q <+: cs) :
    (bytes p).length ≤ (bytes q).length ↔ p.length ≤ q.length := by
  constructor
  · intro h
    rcases List.prefix_or_prefix_of_prefix hp hq with hpq | ⟨rest, rfl⟩
    · exact hpq.length_le
    · rw [bytes_append, List.length_append] at h
      have hr : rest = [] := bytes_eq_nil (List.eq_nil_of_length_eq_zero (by omega))
      simp [hr]
  · intro h
    exact (bytes_front (List.prefix_of_prefix_length_le hp hq h)).length_le

end TaskRelay.Json
