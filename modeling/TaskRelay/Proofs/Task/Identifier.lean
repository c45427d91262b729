import Mathlib.Algebra.Group.Nat.Defs
import Mathlib.Data.List.Induction
import TaskRelay.Uuid

/-!
# Identifiers read back

The 32 digits of an identifier give its bits again, and the hyphens between their groups
stand where the reader takes them out. Four forms are accepted, and nothing else is.
-/

set_option autoImplicit false

namespace TaskRelay.Uuid

open Text

theorem hexDigits_length (k n : Nat) : (hexDigits k n).length = k := by
  induction k generalizing n with
  | zero => rfl
  | succ k ih => rw [hexDigits, List.length_append, ih, List.length_singleton]

theorem hexNumber_hexDigits (k n : Nat) : hexNumber? (hexDigits k n) = some (n % 16 ^ k) := by
  induction k generalizing n with
  | zero => simp [hexDigits, hexNumber?, Nat.mod_one]
  | succ k ih =>
    have hd := hexDigit?_hexDigit (n % 16) (Nat.mod_lt n (by decide))
    have hs : 16 * (n / 16 % 16 ^ k) + n % 16 = n % 16 ^ (k + 1) := by
      rw [Nat.pow_succ', Nat.mod_mul, Nat.add_comm]
    have hi := ih (n / 16)
    rw [hexNumber?] at hi
    rw [hexDigits, hexNumber?, List.foldlM_append, hi]
    simp [hd, hs]

structure Parts (ds a b c d e : List Char) : Prop where
  joined : ds = a ++ (b ++ (c ++ (d ++ e)))
  first : a.length = 8
  second : b.length = 4
  third : c.length = 4
  fourth : d.length = 4
  last : e.length = 12

def hyphenated (a b c d e : List Char) : List Char :=
  a ++ '-' :: (b ++ '-' :: (c ++ '-' :: (d ++ '-' :: e)))

theorem exists_parts {ds : List Char} (h : ds.length = 32) : ∃ a b c d e, Parts ds a b c d e := by
  have hd (n : Nat) : (ds.drop n).take 4 ++ ds.drop (n + 4) = ds.drop n := by
    rw [← List.drop_drop, List.take_append_drop]
  have hl (n : Nat) (hn : n + 4 ≤ 32) : ((ds.drop n).take 4).length = 4 := by
    rw [List.length_take, List.length_drop]
    omega
  refine ⟨ds.take 8, (ds.drop 8).take 4, (ds.drop 12).take 4, (ds.drop 16).take 4, ds.drop 20, ?_,
    ?_, hl 8 (by decide), hl 12 (by decide), hl 16 (by decide), ?_⟩
  · rw [hd 16, hd 12, hd 8, List.take_append_drop]
  · rw [List.length_take]
    omega
  · rw [List.length_drop]
    omega

section
variable {ds a b c d e : List Char}

theorem drop_all {l : List Char} {k : Nat} (hl : l.length = k) (n : Nat) (hk : k ≤ n) :
    l.drop n = [] :=
  List.drop_of_length_le (hl ▸ hk)

theorem Parts.length (h : Parts ds a b c d e) : ds.length = 32 := by
  simp [h.joined, h.first, h.second, h.third, h.fourth, h.last]

theorem Parts.group (h : Parts ds a b c d e) : group ds = hyphenated a b c d e := by
  obtain ⟨rfl, h₁, h₂, h₃, h₄, h₅⟩ := h
  simp [Uuid.group, hyphenated, h₁, h₂, h₃, h₄, List.drop_append, drop_all h₁, drop_all h₂,
    drop_all h₃]

/-- Hyphens between groups of the right lengths are taken out again. -/
theorem Parts.ungroup (h : Parts ds a b c d e) :
    ungroup? (hyphenated a b c d e) = some ds := by
  obtain ⟨rfl, h₁, h₂, h₃, h₄, h₅⟩ := h
  simp [ungroup?, hyphenated, h₁, h₂, h₃, h₄, h₅, List.drop_append, drop_all h₁, drop_all h₂,
    drop_all h₃, drop_all h₄]

end

/-- A text from which hyphens were taken out has them between its groups. -/
theorem parts_of_ungroup {cs ds : List Char} (h : ungroup? cs = some ds) :
    ∃ a b c d e, Parts ds a b c d e ∧ cs = hyphenated a b c d e := by
  unfold ungroup? at h
  split at h
  · next hc =>
    obtain ⟨hl, h8, h13, h18, h23⟩ := hc
    cases h
    have cut (n : Nat) (hn : cs[n]? = some '-') : cs.drop n = '-' :: cs.drop (n + 1) := by
      obtain ⟨hlt, hg⟩ := List.getElem?_eq_some_iff.mp hn
      rw [List.drop_eq_getElem_cons hlt, hg]
    have next (n : Nat) (hn : cs[n + 4]? = some '-') :
        cs.drop n = (cs.drop n).take 4 ++ '-' :: cs.drop (n + 5) := by
      rw [← cut (n + 4) hn, ← List.drop_drop, List.take_append_drop]
    have four (n : Nat) (hn : n + 4 ≤ 36) : ((cs.drop n).take 4).length = 4 := by
      rw [List.length_take, List.length_drop]
      omega
    refine ⟨cs.take 8, (cs.drop 9).take 4, (cs.drop 14).take 4, (cs.drop 19).take 4, cs.drop 24,
      ⟨?_, ?_, four 9 (by decide), four 14 (by decide), four 19 (by decide), ?_⟩, ?_⟩
    · simp only [List.append_assoc]
    · rw [List.length_take]
      omega
    · rw [List.length_drop]
      omega
    · rw [hyphenated, ← next 19 h23, ← next 14 h18, ← next 9 h13, ← cut 8 h8,
        List.take_append_drop]
  · cases h

theorem ungroup_some_iff {cs ds : List Char} :
    ungroup? cs = some ds ↔ cs = group ds ∧ ds.length = 32 := by
  constructor
  · intro h
    obtain ⟨a, b, c, d, e, hp, rfl⟩ := parts_of_ungroup h
    exact ⟨hp.group.symm, hp.length⟩
  · rintro ⟨rfl, h⟩
    obtain ⟨a, b, c, d, e, hp⟩ := exists_parts h
    rw [hp.group, hp.ungroup]

theorem group_length {ds : List Char} (h : ds.length = 32) : (group ds).length = 36 := by
  simp [group, h]

structure DigitsOf (u : Uuid) (ds : List Char) : Prop where
  length : ds.length = 32
  value : hexNumber? ds = some u.bits.toNat

/-- The forms in which an identifier is accepted: its digits alone, in groups with hyphens, those
in braces, or those behind the word for such names in letters of either case. -/
inductive Spells (u : Uuid) : List Char → Prop
  | digits {ds : List Char} (h : DigitsOf u ds) : Spells u ds
  | grouped {ds : List Char} (h : DigitsOf u ds) : Spells u (group ds)
  | braced {ds : List Char} (h : DigitsOf u ds) : Spells u ('\x7b' :: (group ds ++ ['\x7d']))
  | named {ds word : List Char} (h : DigitsOf u ds) (hw : word.map Char.toLower = nameSpace) :
      Spells u (word ++ group ds)

theorem DigitsOf.ofDigits {u : Uuid} {ds : List Char} (h : DigitsOf u ds) :
    ofDigits? ds = some u := by
  rw [ofDigits?, h.value, Option.map_some, BitVec.ofNat_toNat, BitVec.setWidth_eq]

theorem DigitsOf.ungroup {u : Uuid} {ds : List Char} (h : DigitsOf u ds) :
    (ungroup? (group ds)).bind ofDigits? = some u := by
  rw [ungroup_some_iff.mpr ⟨rfl, h.length⟩]
  exact h.ofDigits

theorem ofChars_spells {u : Uuid} {cs : List Char} (h : Spells u cs) : ofChars? cs = some u := by
  cases h with
  | digits h => rw [ofChars?, if_pos h.length, h.ofDigits]
  | grouped h =>
    have hl := group_length h.length
    rw [ofChars?, if_neg (by omega), if_neg (by omega), if_neg (by omega), h.ungroup]
  | @braced ds h =>
    have hl := group_length h.length
    have hb : ('\x7b' :: (group ds ++ ['\x7d'])).length = 38 := by
      rw [List.length_cons, List.length_append, hl]
      rfl
    have he : (('\x7b' :: (group ds ++ ['\x7d'])).drop 1).dropLast = group ds := by simp
    have ht : ('\x7b' :: group ds ++ ['\x7d']).getLast? = some '\x7d' := List.getLast?_concat
    rw [ofChars?, if_neg (by omega), if_pos ⟨hb, rfl, ht⟩, he, h.ungroup]
  | @named ds word h hw =>
    have hl := group_length h.length
    have hn : word.length = 9 := by
      rw [← List.length_map (f := Char.toLower), hw]
      rfl
    have hb : (word ++ group ds).length = 45 := by rw [List.length_append, hn, hl]
    have ht : (word ++ group ds).take 9 = word := by rw [← hn, List.take_left]
    have hd : (word ++ group ds).drop 9 = group ds := by rw [← hn, List.drop_left]
    rw [ofChars?, if_neg (by omega), if_neg (by omega), if_pos ⟨hb, by rw [ht, hw]⟩, hd, h.ungroup]

theorem hexNumber_lt {ds : List Char} {n : Nat} (h : hexNumber? ds = some n) :
    n < 16 ^ ds.length := by
  induction ds using List.reverseRecOn generalizing n with
  | nil =>
    cases h
    decide
  | append_singleton ds c ih =>
    rw [hexNumber?, List.foldlM_append] at h
    obtain ⟨m, hm, hc⟩ := Option.bind_eq_some_iff.mp h
    rw [List.foldlM_cons] at hc
    obtain ⟨k, hk, hn⟩ := Option.bind_eq_some_iff.mp hc
    obtain ⟨d, hd, rfl⟩ := Option.map_eq_some_iff.mp hk
    cases hn
    have hlt := ih hm
    have hd := (hexDigit?_bounds hd).2
    rw [List.length_append, List.length_singleton, Nat.pow_succ]
    omega

theorem digitsOf_of_ofDigits {u : Uuid} {ds : List Char} (hl : ds.length = 32)
    (h : ofDigits? ds = some u) : DigitsOf u ds := by
  obtain ⟨n, hn, rfl⟩ := Option.map_eq_some_iff.mp h
  have hlt := hexNumber_lt hn
  rw [hl] at hlt
  refine ⟨hl, ?_⟩
  rw [hn, BitVec.toNat_ofNat, Nat.mod_eq_of_lt (by omega)]

theorem grouped_of_ungroup {u : Uuid} {cs : List Char}
    (h : (ungroup? cs).bind ofDigits? = some u) : ∃ ds, DigitsOf u ds ∧ cs = group ds := by
  obtain ⟨ds, hds, hu⟩ := Option.bind_eq_some_iff.mp h
  obtain ⟨hg, hl⟩ := ungroup_some_iff.mp hds
  exact ⟨ds, digitsOf_of_ofDigits hl hu, hg⟩

/-- Nothing but these forms is accepted. -/
theorem parse_spells_iff {u : Uuid} {s : String} : parse? s = some u ↔ Spells u s.toList := by
  refine ⟨fun h => ?_, ofChars_spells⟩
  rw [parse?] at h
  generalize s.toList = cs at h
  unfold ofChars? at h
  split at h
  · next hl => exact .digits (digitsOf_of_ofDigits hl h)
  · split at h
    · next hb =>
      obtain ⟨hl, hh, ht⟩ := hb
      obtain ⟨ds, hds, hg⟩ := grouped_of_ungroup h
      obtain ⟨tail, rfl⟩ := List.head?_eq_some_iff.mp hh
      have hn : tail ≠ [] := by
        rintro rfl
        cases hl
      have hlast : tail.getLast hn = '\x7d' := by
        rw [List.getLast?_cons, List.getLast?_eq_some_getLast hn] at ht
        exact Option.some.inj ht
      rw [List.drop_succ_cons, List.drop_zero] at hg
      rw [← List.dropLast_concat_getLast hn, hlast, hg]
      exact .braced hds
    · split at h
      · next hw =>
        obtain ⟨ds, hds, hg⟩ := grouped_of_ungroup h
        rw [← List.take_append_drop 9 cs, hg]
        exact .named hds hw.2
      · obtain ⟨ds, hds, rfl⟩ := grouped_of_ungroup h
        exact .grouped hds

theorem digitsOf_hexDigits (u : Uuid) : DigitsOf u (hexDigits 32 u.bits.toNat) := by
  have hbits : u.bits.toNat % 16 ^ 32 = u.bits.toNat := Nat.mod_eq_of_lt u.bits.isLt
  exact ⟨hexDigits_length _ _, by rw [hexNumber_hexDigits, hbits]⟩

theorem parse_text (u : Uuid) : parse? u.text = some u := by
  rw [parse_spells_iff, text, String.toList_ofList]
  exact .grouped (digitsOf_hexDigits u)

end TaskRelay.Uuid
