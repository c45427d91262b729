import TaskRelay.Proofs.Json.Values
import TaskRelay.Proofs.Json.Written

/-!
# Tokens read and passed over

Each token is taken up to its end, whatever stands behind it: the blanks in front of the next
one, a string up to its closing quote, a number up to the first byte that does not go on with
it. Passing over a string looks at less than reading it does, so it also succeeds on half of a
surrogate pair.
-/

set_option autoImplicit false

namespace TaskRelay.Json

open Text

theorem skipBlanks_gap (g : Gap) (s : Bytes) :
    skipBlanks (bytes (gapChars g) ++ s) = skipBlanks s := by
  induction g with
  | nil => rfl
  | cons b g ih =>
    have hb : ∃ x, String.utf8EncodeChar b.char = [x] ∧ isBlank x = true := by
      cases b <;> exact ⟨_, rfl, rfl⟩
    obtain ⟨x, he, hx⟩ := hb
    change skipBlanks (bytes (b.char :: gapChars g) ++ s) = _
    rw [bytes_cons, he, List.append_assoc, List.singleton_append, skipBlanks,
      List.dropWhile_cons_of_pos hx]
    exact ih

theorem next_gap (g : Gap) (s : Bytes) : next (bytes (gapChars g) ++ s) = next s := by
  rw [next, next, skipBlanks_gap]

theorem opening_gap (close : UInt8) (first : Bool) (g : Gap) (s : Bytes) :
    opening close first (bytes (gapChars g) ++ s) = opening close first s := by
  rw [opening, opening, next_gap]

theorem colon_gap (g : Gap) (s : Bytes) :
    colon (bytes (gapChars g) ++ 0x3A :: s) = .ok s := by
  rw [colon, next_gap, next_dark rfl]
  rfl

/-- What ends a number does so behind blanks as well. -/
theorem clear_gap (g : Gap) {s : Bytes} (h : Clear s) : Clear (bytes (gapChars g) ++ s) := by
  cases g with
  | nil => exact h
  | cons b g =>
    intro x hx
    cases b <;> cases hx <;> decide

theorem HexDigit.byte (d : HexDigit) : ∃ b, String.utf8EncodeChar d.char = [b] ∧
    Char.ofNat b.toNat = d.char :=
  ⟨_, encode_ascii (hexDigit?_bounds d.reads).1, encode_byte (hexDigit?_bounds d.reads).1⟩

theorem hexWord_chars (u : CodeUnit) (rest : Bytes) :
    hexWord (bytes u.chars ++ rest) = .ok (u.number, rest) := by
  obtain ⟨a, b, c, d⟩ := u
  obtain ⟨w, hw, ha⟩ := a.byte
  obtain ⟨x, hx, hb⟩ := b.byte
  obtain ⟨y, hy, hc⟩ := c.byte
  obtain ⟨z, hz, hd⟩ := d.byte
  have hn : hexNumber? [a.char, b.char, c.char, d.char] =
      some (CodeUnit.number ⟨a, b, c, d⟩) := by
    simp [hexNumber?, CodeUnit.number, a.reads, b.reads, c.reads, d.reads]
  rw [CodeUnit.chars, bytes_cons, bytes_cons, bytes_cons, bytes_cons, hw, hx, hy, hz]
  simp only [List.cons_append, List.nil_append, bytes_nil, hexWord, List.map_cons, List.map_nil,
    ha, hb, hc, hd, hn]

theorem unescape_short (s : Short) (rest : Bytes) :
    unescape (bytes [s.letter] ++ rest) = .ok (String.utf8EncodeChar s.char, rest) := by
  cases s <;> rfl

theorem unescape_unit (u : CodeUnit) (rest : Bytes) :
    unescape (bytes ('u' :: u.chars) ++ rest) =
      if u.IsLow then .error .malformed
      else if u.IsHigh then
        (lowSurrogate u.number rest).map fun p => (String.utf8EncodeChar (Char.ofNat p.1), p.2)
      else .ok (String.utf8EncodeChar (Char.ofNat u.number), rest) := by
  have hu : simpleEscape? 0x75 = none := by decide
  have hb : bytes ('u' :: u.chars) ++ rest = 0x75 :: (bytes u.chars ++ rest) := rfl
  rw [hb, unescape, hu]
  simp only [hexWord_chars, bind, Except.bind, ne_eq, not_true_eq_false, if_false]
  rfl

theorem lowSurrogate_unit (u low : CodeUnit) (rest : Bytes) :
    (lowSurrogate u.number (bytes (Piece.unit low).chars ++ rest)).map
        (fun p => (String.utf8EncodeChar (Char.ofNat p.1), p.2)) =
      if low.IsLow then .ok (String.utf8EncodeChar (u.joined low), rest)
      else .error .malformed := by
  have hb : bytes (Piece.unit low).chars ++ rest = 0x5C :: 0x75 :: (bytes low.chars ++ rest) := rfl
  rw [hb, lowSurrogate]
  simp only [hexWord_chars, bind, Except.bind, ne_eq, not_true_eq_false, if_false]
  by_cases h : low.IsLow
  · rw [if_pos h, if_pos (show _ ∧ _ from h)]
    rfl
  · rw [if_neg h, if_neg (show ¬(_ ∧ _) from h)]
    rfl

theorem bytes_pieceChars (p : Piece) (ps : List Piece) :
    bytes (pieceChars (p :: ps)) = bytes p.chars ++ bytes (pieceChars ps) := by
  rw [← bytes_append]
  rfl

theorem plain_ordinary {c : Char} (h : IsPlain c) : ∀ b ∈ String.utf8EncodeChar c, Ordinary b :=
  ordinary_bytes h.1 h.2.1 (Nat.not_lt.mpr h.2.2)

/-- Behind the first half of a surrogate pair only the escape of another unit is accepted. -/
theorem lowSurrogate_other (n : Nat) {ps : List Piece} (hp : ∀ u rest, ps ≠ .unit u :: rest)
    (rest : Bytes) :
    lowSurrogate n (bytes (pieceChars ps) ++ 0x22 :: rest) = .error .malformed := by
  cases ps with
  | nil => rfl
  | cons p ps =>
    rw [bytes_pieceChars]
    cases p with
    | plain c h =>
      obtain ⟨b, bs, hb⟩ := List.exists_cons_of_ne_nil (String.utf8EncodeChar_ne_nil (c := c))
      have ho := plain_ordinary h b (hb ▸ List.mem_cons_self)
      change lowSurrogate n (bytes [c] ++ bytes (pieceChars ps) ++ 0x22 :: rest) = _
      rw [bytes_cons, hb, List.cons_append, List.cons_append, List.cons_append]
      exact if_pos ho.2.1
    | short s => cases s <;> rfl
    | unit u => exact absurd rfl (hp u ps)

def orMalformed {α : Type} : Option α → Except Fault α
  | some a => .ok a
  | none => .error .malformed

theorem stringBytes_refused {s : Bytes} (fuel : Nat) (content : Bytes)
    (h : unescape s = .error .malformed) :
    stringBytes (fuel + 1) content (0x5C :: s) = .error .malformed := by
  have hq : ¬(0x5C : UInt8) = 0x22 := by decide
  rw [stringBytes, if_neg hq, if_pos rfl, h]
  rfl

def behind (content rest : Bytes) (cs : List Char) : Front Bytes :=
  ((bytes cs).reverse ++ content, rest)

theorem behind_cons (c : Char) (o : Option (List Char)) (content rest : Bytes) :
    (orMalformed o).map (behind ((String.utf8EncodeChar c).reverse ++ content) rest) =
      (orMalformed (o.map (c :: ·))).map (behind content rest) := by
  cases o with
  | none => rfl
  | some cs =>
    have h : behind ((String.utf8EncodeChar c).reverse ++ content) rest cs =
        behind content rest (c :: cs) := by
      rw [behind, behind, bytes_cons, List.reverse_append, List.append_assoc]
    exact congrArg Except.ok h

theorem bytes_short (s : Short) (rest : Bytes) :
    bytes (Piece.short s).chars ++ rest = 0x5C :: (bytes [s.letter] ++ rest) := rfl

theorem bytes_unit (u : CodeUnit) (rest : Bytes) :
    bytes (Piece.unit u).chars ++ rest = 0x5C :: (bytes ('u' :: u.chars) ++ rest) := rfl

theorem length_pieceChars {p : Piece} {ps : List Piece} {fuel : Nat}
    (hf : (bytes (pieceChars (p :: ps))).length ≤ fuel) :
    ∃ k, fuel = (bytes p.chars).length + k ∧ (bytes (pieceChars ps)).length ≤ k := by
  rw [bytes_pieceChars, List.length_append] at hf
  exact ⟨fuel - (bytes p.chars).length, by omega, by omega⟩

/-- An escape is longer than a byte. -/
theorem length_escape {p : Piece} (h : ∀ c hc, p ≠ .plain c hc) (k : Nat) :
    ∃ n, (bytes p.chars).length + k = n + 1 ∧ k ≤ n := by
  have hp : 1 ≤ (bytes p.chars).length := by
    cases p with
    | plain c hc => exact absurd rfl (h c hc)
    | short s => exact Nat.succ_pos _
    | unit u => exact Nat.succ_pos _
  exact ⟨(bytes p.chars).length + k - 1, by omega, by omega⟩

/-- A string is read as what it stands for, and is malformed if it stands for nothing. -/
theorem stringBytes_pieces (ps : List Piece) (content rest : Bytes) (fuel : Nat)
    (hf : (bytes (pieceChars ps)).length ≤ fuel) :
    stringBytes (fuel + 1) content (bytes (pieceChars ps) ++ 0x22 :: rest) =
      (orMalformed (content? ps)).map (behind content rest) := by
  fun_induction content? ps generalizing content fuel with
  | case1 => exact if_pos rfl
  | case2 c h ps ih =>
    have hc : bytes (Piece.plain c h).chars = String.utf8EncodeChar c := List.append_nil _
    obtain ⟨k, rfl, hk⟩ := length_pieceChars hf
    rw [bytes_pieceChars, hc, List.append_assoc, Nat.add_assoc,
      stringBytes_ordinary _ (plain_ordinary h), ← behind_cons]
    exact ih _ _ hk
  | case3 s ps ih =>
    obtain ⟨k, rfl, hk⟩ := length_pieceChars hf
    obtain ⟨n, hn, hkn⟩ := length_escape (p := .short s) nofun k
    rw [bytes_pieceChars, List.append_assoc, bytes_short,
      stringBytes_unescape _ _ (unescape_short s _), ← behind_cons, hn]
    exact ih _ _ (by omega)
  | case4 u ps hl =>
    rw [bytes_pieceChars, List.append_assoc, bytes_unit]
    apply stringBytes_refused
    rw [unescape_unit, if_pos hl]
  | case5 u hl hh low ps hlow ih =>
    obtain ⟨k, rfl, hk⟩ := length_pieceChars hf
    obtain ⟨m, rfl, hm⟩ := length_pieceChars hk
    obtain ⟨n, hn, hmn⟩ := length_escape (p := .unit u) nofun
      ((bytes (Piece.unit low).chars).length + m)
    have hu (s : Bytes) : unescape (bytes ('u' :: u.chars) ++ (bytes (Piece.unit low).chars ++ s)) =
        .ok (String.utf8EncodeChar (u.joined low), s) := by
      rw [unescape_unit, if_neg hl, if_pos hh, lowSurrogate_unit, if_pos hlow]
    rw [bytes_pieceChars, bytes_pieceChars, List.append_assoc, List.append_assoc, bytes_unit,
      stringBytes_unescape _ _ (hu _), ← behind_cons, hn]
    exact ih _ _ (by omega)
  | case6 u hl hh low ps hlow =>
    rw [bytes_pieceChars, List.append_assoc, bytes_unit]
    apply stringBytes_refused
    rw [unescape_unit, if_neg hl, if_pos hh, bytes_pieceChars, List.append_assoc,
      lowSurrogate_unit, if_neg hlow]
  | case7 u ps hl hh hp =>
    rw [bytes_pieceChars, List.append_assoc, bytes_unit]
    apply stringBytes_refused
    rw [unescape_unit, if_neg hl, if_pos hh, lowSurrogate_other _ hp]
    rfl
  | case8 u ps hl hh ih =>
    obtain ⟨k, rfl, hk⟩ := length_pieceChars hf
    obtain ⟨n, hn, hkn⟩ := length_escape (p := .unit u) nofun k
    have hu (s : Bytes) : unescape (bytes ('u' :: u.chars) ++ s) =
        .ok (String.utf8EncodeChar (Char.ofNat u.number), s) := by
      rw [unescape_unit, if_neg hl, if_neg hh]
    rw [bytes_pieceChars, List.append_assoc, bytes_unit, stringBytes_unescape _ _ (hu _),
      ← behind_cons, hn]
    exact ih _ _ (by omega)

theorem string_pieces (ps : List Piece) (rest : Bytes) :
    string (bytes (pieceChars ps) ++ 0x22 :: rest) =
      (orMalformed (content? ps)).map fun cs => (String.ofList cs, rest) := by
  rw [string, stringBytes_pieces ps [] rest _ (by rw [List.length_append]; omega)]
  cases content? ps with
  | none => rfl
  | some cs =>
    have h := fromUTF8_bytes (String.ofList cs)
    rw [String.toList_ofList] at h
    simp only [orMalformed, behind, Except.map, bind, Except.bind, List.append_nil,
      List.reverse_reverse, h]

theorem skipString_ordinary (bs : Bytes) (hb : ∀ b ∈ bs, Ordinary b) (fuel : Nat) (rest : Bytes) :
    skipString (bs.length + fuel) (bs ++ rest) = skipString fuel rest := by
  induction bs with
  | nil => rw [List.length_nil, Nat.zero_add]; rfl
  | cons b bs ih =>
    obtain ⟨hq, he, hc⟩ := hb b List.mem_cons_self
    rw [List.length_cons, Nat.add_right_comm, List.cons_append, skipString.eq_def]
    simp only [if_neg hq, if_neg he, if_neg hc]
    exact ih fun x hx => hb x (List.mem_cons_of_mem b hx)

theorem skipString_short (s : Short) (fuel : Nat) (rest : Bytes) :
    skipString (fuel + 1) (bytes (Piece.short s).chars ++ rest) = skipString fuel rest := by
  cases s <;> rfl

theorem skipString_unit (u : CodeUnit) (fuel : Nat) (rest : Bytes) :
    skipString (fuel + 1) (bytes (Piece.unit u).chars ++ rest) = skipString fuel rest := by
  have hu : (simpleEscape? 0x75).isSome = false := by decide
  have hb : bytes (Piece.unit u).chars ++ rest = 0x5C :: 0x75 :: (bytes u.chars ++ rest) := rfl
  have hq : ¬(0x5C : UInt8) = 0x22 := by decide
  simp only [hb, skipString, hq, hu, Bool.false_eq_true, if_false, if_true, ne_eq,
    not_true_eq_false, hexWord_chars, bind, Except.bind]

theorem skipString_pieces (ps : List Piece) (rest : Bytes) (fuel : Nat)
    (hf : (bytes (pieceChars ps)).length ≤ fuel) :
    skipString (fuel + 1) (bytes (pieceChars ps) ++ 0x22 :: rest) = .ok rest := by
  induction ps generalizing fuel with
  | nil => exact if_pos rfl
  | cons p ps ih =>
    obtain ⟨k, rfl, hk⟩ := length_pieceChars hf
    rw [bytes_pieceChars, List.append_assoc]
    cases p with
    | plain c h =>
      have hc : bytes (Piece.plain c h).chars = String.utf8EncodeChar c := List.append_nil _
      rw [hc, Nat.add_assoc, skipString_ordinary _ (plain_ordinary h)]
      exact ih k hk
    | short s =>
      obtain ⟨n, hn, hkn⟩ := length_escape (p := .short s) nofun k
      rw [skipString_short, hn]
      exact ih n (by omega)
    | unit u =>
      obtain ⟨n, hn, hkn⟩ := length_escape (p := .unit u) nofun k
      rw [skipString_unit, hn]
      exact ih n (by omega)

namespace Digits

variable (ds : Digits)

def values : List Nat := ds.chars.map fun c => c.toNat - 48

theorem values_ne_nil : ds.values ≠ [] := fun h => ds.ne_nil (List.map_eq_nil_iff.mp h)

theorem someDigits_chars {rest : Bytes} (hr : ∀ b ∈ rest.head?, digit? b = none) :
    someDigits (bytes ds.chars ++ rest) = .ok (ds.values, rest) := by
  have h := digits_bytes ds.chars ds.digits hr
  change Json.digits _ = (ds.values, rest) at h
  obtain ⟨d, vs, hv⟩ := List.exists_cons_of_ne_nil ds.values_ne_nil
  rw [someDigits, h, hv]

theorem first : ∃ b s, bytes ds.chars = b :: s ∧ (digit? b).isSome = true := by
  obtain ⟨c, cs, hc⟩ := List.exists_cons_of_ne_nil ds.ne_nil
  obtain ⟨hb, hd⟩ := digit_byte (ds.digits c (hc ▸ List.mem_cons_self))
  rw [hc, bytes_cons, hb]
  exact ⟨_, _, rfl, Option.isSome_of_eq_some hd⟩

end Digits

theorem skipScalar_digit {b : UInt8} (h : (digit? b).isSome = true) (s : Bytes) :
    skipScalar b s = skipNumber (b :: s) := by
  rw [skipScalar, if_neg (digit_ne h rfl), if_neg (digit_ne h rfl), if_neg (digit_ne h rfl),
    if_neg (digit_ne h rfl), if_pos h]

namespace Numeric

variable (n : Numeric) {rest : Bytes}

theorem digit_zero {c : Char} (h : c.isDigit = true) (hz : c.toNat - 48 = 0) : c = '0' := by
  have hr : 48 ≤ c.toNat ∧ c.toNat ≤ 57 := by
    simpa [Char.isDigit, UInt32.le_iff_toNat_le] using h
  have ht : c.toNat = 48 := by omega
  rw [← Char.ofNat_toNat c, ht]

theorem wholeDigits_chars (hr : ∀ b ∈ rest.head?, digit? b = none) :
    wholeDigits (bytes n.whole.chars ++ rest) = .ok (n.whole.values, rest) := by
  have h := n.whole.someDigits_chars hr
  rw [wholeDigits, h]
  simp only [bind, Except.bind]
  split
  · next d ds hv =>
    obtain ⟨c, cs, hc, hz, hcs⟩ := List.map_eq_cons_iff.mp hv
    have hd : c.isDigit = true := n.whole.digits c (hc ▸ List.mem_cons_self)
    have he := n.unpadded (by rw [hc, digit_zero hd hz]; rfl)
    rw [hc, List.cons.injEq] at he
    rw [he.2] at hcs
    cases hcs
  · rfl

def exponentValue (e : Exponent) : Bool × List Nat := (e.sign == .minus, e.digits.values)

theorem clear_digits (h : Clear rest) : ∀ b ∈ rest.head?, digit? b = none := fun b hb => (h b hb).1

theorem clear_exponent (e : Option Exponent) (h : Clear rest) :
    ∀ b ∈ (bytes (exponentChars e) ++ rest).head?, digit? b = none ∧ b ≠ 0x2E := by
  intro b hb
  cases e with
  | none => exact ⟨(h b hb).1, (h b hb).2.1⟩
  | some e =>
    obtain ⟨capital, sign, ds⟩ := e
    cases capital <;> cases hb
    · exact ⟨rfl, show (0x65 : UInt8) ≠ 0x2E by decide⟩
    · exact ⟨rfl, show (0x45 : UInt8) ≠ 0x2E by decide⟩

theorem exponentPart_chars (e : Option Exponent) (h : Clear rest) :
    exponentPart (bytes (exponentChars e) ++ rest) = .ok (e.map exponentValue, rest) := by
  cases e with
  | none =>
    cases rest with
    | nil => rfl
    | cons b t => exact if_neg (h b rfl).2.2
  | some e =>
    obtain ⟨capital, sign, ds⟩ := e
    have hd := ds.someDigits_chars (clear_digits h)
    have hm : ∃ b, bytes (exponentChars (some ⟨capital, sign, ds⟩)) ++ rest =
        b :: (bytes sign.chars ++ (bytes ds.chars ++ rest)) ∧ (b = 0x65 ∨ b = 0x45) := by
      rw [← List.append_assoc, ← bytes_append]
      cases capital
      · exact ⟨0x65, rfl, Or.inl rfl⟩
      · exact ⟨0x45, rfl, Or.inr rfl⟩
    obtain ⟨b, hb, hbe⟩ := hm
    rw [hb]
    cases sign with
    | plus =>
      change exponentPart (b :: 0x2B :: (bytes ds.chars ++ rest)) = _
      simp only [exponentPart, if_pos hbe, hd, bind, Except.bind]
      rfl
    | minus =>
      change exponentPart (b :: 0x2D :: (bytes ds.chars ++ rest)) = _
      simp only [exponentPart, if_pos hbe, hd, bind, Except.bind]
      rfl
    | bare =>
      obtain ⟨x, s, hx, hxd⟩ := ds.first
      change exponentPart (b :: (bytes ds.chars ++ rest)) = _
      rw [hx] at hd ⊢
      rw [List.cons_append] at hd ⊢
      rw [exponentPart, if_pos hbe]
      · simp only [hd, bind, Except.bind]
        rfl
      · rintro t he
        exact digit_ne hxd rfl (List.cons.inj he).1
      · rintro t he
        exact digit_ne hxd rfl (List.cons.inj he).1

theorem fractionPart_chars (f : Option Digits) (e : Option Exponent) (h : Clear rest) :
    fractionPart (bytes (fractionChars f) ++ (bytes (exponentChars e) ++ rest)) =
      .ok (f.map Digits.values, bytes (exponentChars e) ++ rest) := by
  have hc := clear_exponent e h
  generalize bytes (exponentChars e) ++ rest = s at hc ⊢
  cases f with
  | none =>
    cases s with
    | nil => rfl
    | cons b t =>
      rw [fractionChars, bytes_nil, List.nil_append, fractionPart]
      · rfl
      · intro t' he
        exact (hc b rfl).2 (List.cons.inj he).1
  | some ds =>
    have hd := ds.someDigits_chars fun b hb => (hc b hb).1
    change fractionPart (0x2E :: (bytes ds.chars ++ s)) = _
    simp only [fractionPart, hd, bind, Except.bind]
    rfl

def numeral (n : Numeric) (negative : Bool) : Numeral :=
  ⟨negative, n.whole.values, n.fraction.map Digits.values, n.exponent.map exponentValue⟩

theorem numeral_chars (negative : Bool) (h : Clear rest) :
    Json.numeral negative (bytes n.unsignedChars ++ rest) = .ok (n.numeral negative, rest) := by
  have hw : ∀ b ∈ (bytes (fractionChars n.fraction) ++
      (bytes (exponentChars n.exponent) ++ rest)).head?, digit? b = none := by
    cases n.fraction with
    | none => exact fun b hb => (clear_exponent n.exponent h b hb).1
    | some ds =>
      intro b hb
      cases hb
      rfl
  rw [unsignedChars, bytes_append, bytes_append, List.append_assoc, List.append_assoc]
  simp only [Json.numeral, n.wholeDigits_chars hw, fractionPart_chars n.fraction n.exponent h,
    exponentPart_chars n.exponent h, bind, Except.bind]
  rfl

/-- An integer in the range is read as its value. -/
theorem value_numeral {v : Json} (h : n.value? = some v) :
    (n.numeral n.negative).value = .ok v := by
  have small (hn : n.whole.number < 0x10000000000000000) :
      Significand.ofWhole n.whole.values = ⟨n.whole.number, 0, false⟩ :=
    ofWhole_digits n.whole.chars 0 hn
  unfold value? at h
  split at h
  · next hi =>
    have hv (hn : n.whole.number < 0x10000000000000000) : (n.numeral n.negative).value =
        .ok (wholeValue n.negative n.whole.number) := by
      simp only [Numeral.value, numeral, hi.1, hi.2, Option.map_none, small hn,
        Bool.false_eq_true, if_false]
    split at h
    · next hneg =>
      rw [hneg] at hv
      split at h
      · next hz =>
        cases h
        rw [hneg, hv (by omega), hz]
        rfl
      · next hz =>
        split at h
        · next hle =>
          cases h
          rw [hneg, hv (by omega), wholeValue, if_pos rfl, dif_pos ⟨Nat.pos_of_ne_zero hz, hle⟩]
        · cases h
    · next hneg =>
      split at h
      · next hlt =>
        cases h
        rw [hv hlt, wholeValue, if_neg hneg, ofNat?, dif_pos hlt]
      · cases h
  · cases h

/-- A number is read up to its end, and passed over too. -/
theorem number_chars (negative : Bool) (h : Clear rest) :
    Json.number negative (bytes n.unsignedChars ++ rest) =
      (n.numeral negative).value.map (·, rest) := by
  rw [Json.number, n.numeral_chars negative h]
  rfl

theorem skipNumber_chars (h : Clear rest) :
    skipNumber (bytes n.unsignedChars ++ rest) = .ok rest := by
  rw [skipNumber, n.numeral_chars false h]

/-- The first byte of a number leads to its reader. -/
theorem scalar_chars : ∃ b s, bytes n.chars = b :: s ∧ (b = 0x2D ∨ (digit? b).isSome = true) ∧
    ∀ {rest : Bytes}, Clear rest →
      scalar b (s ++ rest) = (n.numeral n.negative).value.map (·, rest) ∧
      skipScalar b (s ++ rest) = .ok rest := by
  cases hn : n.negative with
  | true =>
    refine ⟨0x2D, bytes n.unsignedChars, ?_, Or.inl rfl, fun h =>
      ⟨n.number_chars true h, n.skipNumber_chars h⟩⟩
    rw [chars, hn]
    rfl
  | false =>
    obtain ⟨b, s, hu, hd⟩ :
        ∃ b s, bytes n.unsignedChars = b :: s ∧ (digit? b).isSome = true := by
      obtain ⟨b, s, hb, hd⟩ := n.whole.first
      rw [unsignedChars, bytes_append, hb]
      exact ⟨b, _, rfl, hd⟩
    refine ⟨b, s, ?_, Or.inr hd, fun h => ?_⟩
    · rw [chars, hn]
      exact hu
    · rw [scalar_digit hd, skipScalar_digit hd, ← List.cons_append, ← hu]
      exact ⟨n.number_chars false h, n.skipNumber_chars h⟩

end Numeric

end TaskRelay.Json
