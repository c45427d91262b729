import TaskRelay.Proofs.Decimal.Powers
import TaskRelay.Proofs.Decimal.Shortest
import TaskRelay.Proofs.Json.Tokens

/-!
# Doubles read back

Every finite double is written as a number that the reader accepts, though it may read another
double. In plain notation, and with an exponent below zero, the digits are only scaled down,
which nothing refuses. The others are scaled up, and the product stays finite.
-/

set_option autoImplicit false

namespace TaskRelay.Json

open Decimal

theorem scaled_down (x : Float) {e : Int} (h : e < 0) : ∃ y, scaled x e = .ok y := by
  induction hn : e.natAbs using Nat.strongRecOn generalizing x e with
  | _ n ih =>
    rw [scaled, if_neg (Int.not_le.mpr h), if_neg (Int.not_le.mpr h)]
    split
    · exact ⟨_, rfl⟩
    · split
      · exact ⟨_, rfl⟩
      · exact ih (e + 308).natAbs (by omega) _ (by omega) rfl

theorem scaled_up (x : Float) {k : Nat} (hk : k ≤ 308) (h : (x * powerOfTen k).isFinite = true) :
    ∃ y, scaled x k = .ok y := by
  rw [scaled, if_pos (by omega), if_pos (by omega)]
  simp only [Int.natAbs_natCast, isInf_of_isFinite h, Bool.false_eq_true, if_false]
  exact ⟨_, rfl⟩

/-- What the digits of a number come to after those read so far, as numbers of 64 bits. -/
theorem pushFraction_digits (cs : List Char) (n : Nat) (e : Int)
    (h : Nat.ofDigitChars 10 cs n < 0x10000000000000000) :
    (cs.map fun c => c.toNat - 48).foldl Significand.pushFraction ⟨n, e, false⟩ =
      ⟨Nat.ofDigitChars 10 cs n, e - cs.length, false⟩ := by
  induction cs generalizing n e with
  | nil => simp
  | cons c cs ih =>
    rw [Nat.ofDigitChars_cons, Nat.mul_comm] at h
    have hle := digits_ge cs (n * 10 + (c.toNat - '0'.toNat))
    have hc : n * 10 + (c.toNat - 48) < 0x10000000000000000 := Nat.lt_of_le_of_lt hle h
    rw [List.map_cons, List.foldl_cons, Significand.pushFraction, if_neg Bool.false_ne_true,
      if_pos hc, Nat.ofDigitChars_cons, Nat.mul_comm 10 n]
    refine (ih _ (e - 1) h).trans ?_
    simp only [List.length_cons, Nat.cast_add, Nat.cast_one, Significand.mk.injEq, true_and,
      and_true]
    omega

theorem exponentValue?_digits (cs : List Char) (n : Nat)
    (h : Nat.ofDigitChars 10 cs n ≤ maxExponent) :
    (cs.map fun c => c.toNat - 48).foldlM
      (fun n d => if n * 10 + d ≤ maxExponent then some (n * 10 + d) else none) n =
      some (Nat.ofDigitChars 10 cs n) := by
  induction cs generalizing n with
  | nil => rfl
  | cons c cs ih =>
    rw [Nat.ofDigitChars_cons, Nat.mul_comm] at h
    have hc := Nat.le_trans (digits_ge cs (n * 10 + (c.toNat - '0'.toNat))) h
    change n * 10 + (c.toNat - 48) ≤ maxExponent at hc
    rw [List.map_cons, List.foldlM_cons, if_pos hc, Nat.ofDigitChars_cons, Nat.mul_comm 10 n]
    exact ih _ h

theorem pushFraction_scale_le (s : Significand) (ds : List Nat) :
    (ds.foldl Significand.pushFraction s).scale ≤ s.scale := by
  induction ds generalizing s with
  | nil => exact Int.le_refl _
  | cons d ds ih =>
    refine (ih _).trans ?_
    rw [Significand.pushFraction]
    split
    · exact Int.le_refl _
    · split
      · exact Int.sub_le_self _ (by decide)
      · exact Int.le_refl _

theorem addFraction_scale (s : Significand) {d : Nat} (ds : List Nat)
    (h : s.value * 10 + d < 0x10000000000000000) :
    (s.addFraction (d :: ds)).scale < s.scale := by
  have hp : Significand.pushFraction { s with full := false } d =
      ⟨s.value * 10 + d, s.scale - 1, false⟩ := by
    rw [Significand.pushFraction, if_neg Bool.false_ne_true, if_pos h]
  rw [Significand.addFraction, List.foldl_cons, hp]
  refine (pushFraction_scale_le _ ds).trans_lt ?_
  exact Int.sub_lt_self _ (by decide)

theorem toReal_down {s : Significand} (h : s.scale < 0) (negative : Bool) :
    ∃ y, s.toReal negative none = .ok (.real y) := by
  obtain ⟨y, hy⟩ := scaled_down (Float.ofNat s.value) h
  exact ⟨_, by rw [Significand.toReal, hy]; rfl⟩

theorem digit_value_le {c : Char} (h : c.isDigit = true) : c.toNat - 48 ≤ 9 := by
  have hr : 48 ≤ c.toNat ∧ c.toNat ≤ 57 := by
    simpa [Char.isDigit, UInt32.le_iff_toNat_le] using h
  omega

theorem ofDigitChars_lt (cs : List Char) (hd : ∀ c ∈ cs, c.isDigit = true) (n : Nat) :
    Nat.ofDigitChars 10 cs n < (n + 1) * 10 ^ cs.length := by
  induction cs generalizing n with
  | nil => simp
  | cons c cs ih =>
    have hc := digit_value_le (hd c List.mem_cons_self)
    refine (ih (fun d h => hd d (List.mem_cons_of_mem c h)) _).trans_le ?_
    rw [List.length_cons, Nat.pow_succ, Nat.mul_comm (10 ^ cs.length), ← Nat.mul_assoc]
    refine Nat.mul_le_mul_right _ ?_
    change 10 * n + (c.toNat - 48) + 1 ≤ (n + 1) * 10
    omega

/-- A fraction behind sixteen digits or fewer is read with its first digit at least. -/
theorem Numeric.plain_read (n : Numeric) {fraction : Digits} (hf : n.fraction = some fraction)
    (he : n.exponent = none) (hw : n.whole.chars.length ≤ 16) (negative : Bool) :
    ∃ y, (n.numeral negative).value = .ok (.real y) := by
  have hlt : n.whole.number < 10 ^ 16 := by
    refine (ofDigitChars_lt _ n.whole.digits 0).trans_le ?_
    rw [Nat.zero_add, Nat.one_mul]
    exact Nat.pow_le_pow_right (by decide) hw
  have hs : Significand.ofWhole n.whole.values = ⟨n.whole.number, 0, false⟩ :=
    ofWhole_digits n.whole.chars 0 (by change n.whole.number < _; omega)
  obtain ⟨c, cs, hc⟩ := List.exists_cons_of_ne_nil fraction.ne_nil
  have hv : fraction.values = (c.toNat - 48) :: cs.map fun c => c.toNat - 48 := by
    rw [Digits.values, hc, List.map_cons]
  have hle := digit_value_le (fraction.digits c (hc ▸ List.mem_cons_self))
  have hneg := addFraction_scale ⟨n.whole.number, 0, false⟩ (d := c.toNat - 48)
    (cs.map fun c => c.toNat - 48) (by dsimp only; omega)
  rw [← hv] at hneg
  obtain ⟨y, hy⟩ := toReal_down hneg negative
  exact ⟨y, by simp only [Numeral.value, numeral, hf, he, Option.map_some, Option.map_none, hs, hy]⟩

namespace Numeric

def fractionDigits (n : Numeric) : List Char := (n.fraction.map Digits.chars).getD []

/-- With an exponent all digits that fit 64 bits are scaled at once. -/
theorem power_read (n : Numeric) {e : Exponent} (he : n.exponent = some e) {c : Nat}
    (hc : Nat.ofDigitChars 10 (n.whole.chars ++ n.fractionDigits) 0 = c)
    (hfit : c < 0x10000000000000000) (hN : e.digits.number ≤ maxExponent) {x : Int}
    (hx : (if e.sign = .minus then -(e.digits.number : Int) else e.digits.number) -
      n.fractionDigits.length = x) (negative : Bool) :
    (n.numeral negative).value = (scaled (Float.ofNat c) x).map (signed negative) := by
  have hexp : exponentValue? e.digits.values = some e.digits.number :=
    exponentValue?_digits e.digits.chars 0 hN
  rw [Nat.ofDigitChars_append] at hc
  have hw : n.whole.number < 0x10000000000000000 :=
    (digits_ge n.fractionDigits n.whole.number).trans_lt (hc ▸ hfit)
  have hs : Significand.ofWhole n.whole.values = ⟨n.whole.number, 0, false⟩ :=
    ofWhole_digits n.whole.chars 0 hw
  have hr (s : Significand) (hv : s.value = c) (hsc : s.scale = -(n.fractionDigits.length : Int)) :
      s.toReal negative (some (exponentValue e)) =
        (scaled (Float.ofNat c) x).map (signed negative) := by
    have he : (if e.sign = .minus then s.scale - e.digits.number else s.scale + e.digits.number) =
        x := by
      rw [← hx, hsc]
      split <;> omega
    simp only [Significand.toReal, exponentValue, hexp, hv, beq_iff_eq, he]
  cases hf : n.fraction with
  | none =>
    simp only [fractionDigits, hf, Option.map_none, Option.getD_none, List.length_nil,
      Nat.ofDigitChars_nil] at hc hr
    simp only [Numeral.value, numeral, hf, he, hs, Option.map_none, Option.map_some]
    exact hr _ hc rfl
  | some fraction =>
    simp only [fractionDigits, hf, Option.map_some, Option.getD_some] at hc hr
    have ha : (⟨n.whole.number, 0, false⟩ : Significand).addFraction fraction.values =
        ⟨c, 0 - fraction.chars.length, false⟩ := by
      rw [← hc]
      exact pushFraction_digits fraction.chars n.whole.number 0 (hc ▸ hfit)
    simp only [Numeral.value, numeral, hf, he, hs, Option.map_some, ha]
    exact hr _ rfl (Int.zero_sub _)

end Numeric

def digitsOf (n : Nat) : Digits where
  chars := Nat.toDigits 10 n
  ne_nil := Nat.toDigits_ne_nil
  digits _ h := Nat.isDigit_of_mem_toDigits (by decide) (by decide) h

/-- A text is the unsigned part of a number that is read as a double, if the digits can be scaled
up where they have to be. -/
def ReadsBack (c : Nat) (x : Int) (cs : List Char) : Prop :=
  ∀ negative, ∃ n : Numeric, n.negative = negative ∧ n.unsignedChars = cs ∧
    ((0 ≤ x → ∃ y, scaled (Float.ofNat c) x = .ok y) →
      ∃ y, (n.numeral negative).value = .ok (.real y))

theorem readsBack_plain {c : Nat} {x : Int} (whole fraction : Digits)
    (hw : whole.chars.head? = some '0' → whole.chars = ['0']) (hl : whole.chars.length ≤ 16) :
    ReadsBack c x (whole.chars ++ '.' :: fraction.chars) := by
  intro negative
  refine ⟨⟨negative, whole, hw, some fraction, none⟩, rfl, ?_, fun _ =>
    Numeric.plain_read _ rfl rfl hl negative⟩
  exact congrArg (whole.chars ++ '.' :: ·) (List.append_nil _)

theorem scaled_read {c : Nat} {x : Int} (h : 0 ≤ x → ∃ y, scaled (Float.ofNat c) x = .ok y)
    (negative : Bool) :
    ∃ y, (scaled (Float.ofNat c) x).map (signed negative) = .ok (.real y) := by
  have hy : ∃ y, scaled (Float.ofNat c) x = .ok y := by
    rcases Int.lt_or_le x 0 with hneg | hpos
    · exact scaled_down _ hneg
    · exact h hpos
  obtain ⟨y, hy⟩ := hy
  exact ⟨_, by rw [hy]; rfl⟩

theorem toString_toList (n : Nat) : (toString n).toList = Nat.toDigits 10 n := by
  rw [Nat.toString_eq_repr, Nat.toList_repr]

def powerOf (top : Int) : Exponent where
  capital := false
  sign := if 0 ≤ top then .plus else .minus
  digits := digitsOf top.natAbs

theorem powerOf_chars (top : Int) : (powerOf top).chars =
    'e' :: (if 0 ≤ top then '+' else '-') :: (toString top.natAbs).toList := by
  rw [toString_toList, Exponent.chars, powerOf]
  split <;> rfl

theorem powerOf_value (top : Int) :
    (if (powerOf top).sign = .minus then -((powerOf top).digits.number : Int)
      else (powerOf top).digits.number) = top := by
  have hn : (powerOf top).digits.number = top.natAbs := Nat.ofDigitChars_ten_toDigits
  rw [hn, powerOf]
  by_cases h : 0 ≤ top
  · rw [if_pos h, if_neg nofun]
    omega
  · rw [if_neg h, if_pos rfl]
    omega

/-- With an exponent the digits stand behind one another but for the point behind the first. -/
theorem readsBack_power {c : Nat} (hfit : c < 0x10000000000000000) {x top : Int} {d : Char}
    (hd : d.isDigit = true) (fraction : Option Digits)
    (hc : Nat.ofDigitChars 10 (d :: (fraction.map Digits.chars).getD []) 0 = c)
    (htop : top = x + ((fraction.map Digits.chars).getD []).length)
    (hx : top.natAbs ≤ maxExponent) :
    ReadsBack c x (d :: (Numeric.fractionChars fraction ++ (powerOf top).chars)) := by
  intro negative
  let whole : Digits := ⟨[d], List.cons_ne_nil d [], fun a h => List.mem_singleton.mp h ▸ hd⟩
  have hlead (h : [d].head? = some '0') : [d] = ['0'] :=
    congrArg (fun a => [a]) (Option.some.inj h)
  let n : Numeric := ⟨negative, whole, hlead, fraction, some (powerOf top)⟩
  have hN : (powerOf top).digits.number ≤ maxExponent :=
    (Nat.ofDigitChars_ten_toDigits (n := top.natAbs)).trans_le hx
  have hscale : (if (powerOf top).sign = .minus then -((powerOf top).digits.number : Int)
      else (powerOf top).digits.number) - n.fractionDigits.length = x := by
    rw [powerOf_value, htop]
    exact Int.add_sub_cancel _ _
  refine ⟨n, rfl, rfl, fun hs => ?_⟩
  rw [n.power_read rfl hc hfit hN hscale]
  exact scaled_read hs negative

theorem readsBack_write {c : Nat} (hc : 0 < c) (hfit : c < 0x10000000000000000) {x : Int}
    (hx : (x + (Nat.toDigits 10 c).length - 1).natAbs ≤ maxExponent) :
    ReadsBack c x (realLayout.write (Nat.toDigits 10 c) x) := by
  obtain ⟨d, ds, hd, hne⟩ := toDigits_head hc
  have hlead : d ≠ '0' := by
    rintro rfl
    exact hne rfl
  have hdig : ∀ a ∈ Nat.toDigits 10 c, a.isDigit = true := (digitsOf c).digits
  have hnum : Nat.ofDigitChars 10 (Nat.toDigits 10 c) 0 = c := Nat.ofDigitChars_ten_toDigits
  rw [hd] at hx hdig hnum ⊢
  have hzeros (k : Nat) : ∀ a ∈ List.replicate k '0', a.isDigit = true := by
    intro a ha
    rw [List.eq_of_mem_replicate ha]
    rfl
  rw [Layout.write]
  dsimp only
  split
  · next htop =>
    change -5 ≤ x + (d :: ds).length - 1 ∧ x + (d :: ds).length - 1 < 16 at htop
    split
    · next hpos =>
      have ht : (d :: ds ++ List.replicate x.toNat '0').length ≤ 16 := by
        rw [List.length_append, List.length_replicate]
        omega
      exact readsBack_plain ⟨d :: ds ++ List.replicate x.toNat '0', List.cons_ne_nil _ _,
        fun a ha => (List.mem_append.mp ha).elim (hdig a) (hzeros _ a)⟩ (digitsOf 0)
        (fun h => absurd (Option.some.inj h) hlead) ht
    · next hneg =>
      split
      · next hin =>
        have hw : ((d :: ds).take (x + (d :: ds).length - 1 + 1).toNat).head? = some d := by
          rw [List.head?_take, if_neg (by omega), List.head?_cons]
        have ht : ((d :: ds).take (x + (d :: ds).length - 1 + 1).toNat).length ≤ 16 := by
          rw [List.length_take]
          omega
        have hr : (d :: ds).drop (x + (d :: ds).length - 1 + 1).toNat ≠ [] := by
          rw [ne_eq, List.drop_eq_nil_iff]
          omega
        have hl : (d :: ds).take (x + (d :: ds).length - 1 + 1).toNat ≠ [] := by
          intro h
          rw [h] at hw
          cases hw
        exact readsBack_plain ⟨_, hl, fun a ha => hdig a (List.mem_of_mem_take ha)⟩
          ⟨_, hr, fun a ha => hdig a (List.mem_of_mem_drop ha)⟩
          (fun h => absurd (Option.some.inj (hw.symm.trans h)) hlead) ht
      · next hout =>
        exact readsBack_plain (digitsOf 0) ⟨_, List.append_ne_nil_of_right_ne_nil _
          (List.cons_ne_nil d ds), fun a ha => (List.mem_append.mp ha).elim (hzeros _ a) (hdig a)⟩
          (fun _ => rfl) (by decide)
  · rw [← powerOf_chars]
    cases ds with
    | nil =>
      exact readsBack_power hfit (hdig d List.mem_cons_self) none hnum (by simp) hx
    | cons a as =>
      have hdas : ∀ b ∈ a :: as, b.isDigit = true := fun b hb =>
        hdig b (List.mem_cons_of_mem d hb)
      exact readsBack_power hfit (hdig d List.mem_cons_self)
        (some ⟨a :: as, List.cons_ne_nil a as, hdas⟩) hnum (by simp; omega) hx

theorem exponent_finite {x : Float} (h : x.isFinite = true) :
    x.toBits.toNat / leadingBit % 0x800 ≠ 0x7FF := by
  change (Float.Model.UnpackedFloat.unpack .binary64 x.toBits.toBitVec).isFinite = true at h
  intro he
  have hu : @Float.Model.UnpackedFloat.unpackExponent .binary64 x.toBits.toBitVec =
      -1#11 := by
    apply BitVec.eq_of_toNat_eq
    rw [Float.Model.UnpackedFloat.unpackExponent, BitVec.toNat_cast, BitVec.extractLsb_toNat,
      Nat.shiftRight_eq_div_pow]
    exact he
  rw [Float.Model.UnpackedFloat.unpack] at h
  simp only [hu, if_true] at h
  split at h <;> cases h

theorem ofFloat_isDouble {x : Float} (h : x.isFinite = true)
    (hm : (Magnitude.ofFloat x).mantissa ≠ 0) : (Magnitude.ofFloat x).IsDouble := by
  have he := exponent_finite h
  have hf : x.toBits.toNat % leadingBit < leadingBit := Nat.mod_lt _ (by decide)
  have hb : x.toBits.toNat / leadingBit % 0x800 < 0x800 := Nat.mod_lt _ (by decide)
  have hl : leadingBit = 2 ^ 52 := rfl
  have hv : Magnitude.ofFloat x = if x.toBits.toNat / leadingBit % 0x800 = 0 then
      ⟨x.toBits.toNat % leadingBit, -1074⟩
      else ⟨leadingBit + x.toBits.toNat % leadingBit,
        ((x.toBits.toNat / leadingBit % 0x800 : Nat) : Int) - 1075⟩ := by
    simp only [Magnitude.ofFloat, beq_iff_eq]
    rfl
  refine ⟨Nat.pos_of_ne_zero hm, ?_, ?_, ?_⟩ <;> rw [hv] <;> split <;> dsimp only <;> omega

/-- The largest doubles, of which the rounding errors leave no room for an estimate. -/
theorem largest_scaled : ∀ j < 8, (Float.ofNat (Magnitude.shortest ⟨2 ^ 53 - 1 - j, 971⟩).1 *
    powerOfTen (Magnitude.shortest ⟨2 ^ 53 - 1 - j, 971⟩).2.toNat).isFinite = true := by
  decide +kernel

/-- All other doubles lie by some units in the last place below the largest one. -/
theorem high_le {v : Magnitude} (h : v.IsDouble)
    (hs : ¬(2 ^ 53 - 8 ≤ v.mantissa ∧ v.exponent = 971)) :
    ((4 * v.mantissa + 2 : Nat) : ℚ) * 2 ^ (v.exponent - 2) ≤
      (2 ^ 54 - 17) * 2 ^ (970 : Int) := by
  have hlt := h.lt
  have hpow (n : Int) : (0 : ℚ) ≤ 2 ^ n := (zpow_pos (by norm_num) n).le
  rcases eq_or_lt_of_le h.upper with he | he
  · have hm : 4 * v.mantissa + 2 ≤ (2 ^ 54 - 17) * 2 := by omega
    rw [he, show (970 : Int) = 1 + (971 - 2) by rfl, zpow_add₀ (by norm_num), ← mul_assoc]
    refine mul_le_mul_of_nonneg_right ?_ (hpow _)
    have hq : ((4 * v.mantissa + 2 : Nat) : ℚ) ≤ ((2 ^ 54 - 17) * 2 : Nat) := by exact_mod_cast hm
    refine hq.trans_eq ?_
    norm_num
  · have hm : 4 * v.mantissa + 2 ≤ 2 ^ 55 := by omega
    calc ((4 * v.mantissa + 2 : Nat) : ℚ) * 2 ^ (v.exponent - 2)
        ≤ 2 ^ 55 * 2 ^ (968 : Int) :=
          mul_le_mul (by exact_mod_cast hm)
            (zpow_le_zpow_right₀ (by norm_num) (show v.exponent - 2 ≤ 968 by omega))
            (hpow _) (by positivity)
      _ ≤ (2 ^ 54 - 17) * 2 ^ (2 : Int) * 2 ^ (968 : Int) :=
          mul_le_mul_of_nonneg_right (by norm_num) (hpow _)
      _ = (2 ^ 54 - 17) * 2 ^ (970 : Int) := by
          rw [mul_assoc, ← zpow_add₀ (by norm_num)]
          rfl

theorem shortest_scaled {v : Magnitude} (h : v.IsDouble) (hx : 0 ≤ v.shortest.2) :
    ∃ y, scaled (Float.ofNat v.shortest.1) v.shortest.2 = .ok y := by
  obtain ⟨hpos, -, -, hhigh⟩ := h.shortest
  obtain ⟨k, hk⟩ := Int.eq_ofNat_of_zero_le hx
  have hle : k ≤ 308 := by
    have := h.exponent_upper
    omega
  have hlt := h.lt
  have hupper := h.upper
  rw [hk] at hhigh ⊢
  apply scaled_up _ hle
  by_cases hlarge : 2 ^ 53 - 8 ≤ v.mantissa ∧ v.exponent = 971
  · obtain ⟨j, hj⟩ : ∃ j, v.mantissa = 2 ^ 53 - 1 - j ∧ j < 8 :=
      ⟨2 ^ 53 - 1 - v.mantissa, by omega, by omega⟩
    have hv : v = ⟨2 ^ 53 - 1 - j, 971⟩ := by
      cases v
      exact (Magnitude.mk.injEq ..).mpr ⟨hj.1, hlarge.2⟩
    have hl := largest_scaled j hj.2
    rw [← hv, hk] at hl
    exact hl
  · exact scaled_up_isFinite hpos (by omega)
      (le_trans (by exact_mod_cast hhigh) (high_le h hlarge))

/-- Every finite double is written as a number that is read as a double again. -/
theorem real_read {x : Float} (h : x.isFinite = true) :
    ∃ n : Numeric, n.chars = realLayout.text x ∧
      ∃ y, (n.numeral n.negative).value = .ok (.real y) := by
  have signedText {c : Nat} {e : Int} {cs : List Char} (hr : ReadsBack c e cs)
      (hs : 0 ≤ e → ∃ y, scaled (Float.ofNat c) e = .ok y) :
      ∃ n : Numeric, n.chars =
          (if 0x8000000000000000 ≤ x.toBits.toNat then ['-'] else []) ++ cs ∧
        ∃ y, (n.numeral n.negative).value = .ok (.real y) := by
    obtain ⟨n, hn, hcs, hread⟩ := hr (decide (0x8000000000000000 ≤ x.toBits.toNat))
    refine ⟨n, ?_, hn ▸ hread hs⟩
    rw [Numeric.chars, hn, hcs]
    by_cases hneg : 0x8000000000000000 ≤ x.toBits.toNat
    · rw [if_pos hneg, if_pos (decide_eq_true hneg)]
      rfl
    · rw [if_neg hneg, if_neg (by simpa using hneg)]
      rfl
  rw [Layout.text]
  by_cases hm : (Magnitude.ofFloat x).mantissa = 0
  · simp only [hm, if_true]
    exact signedText (c := 0) (readsBack_plain (x := -1) (digitsOf 0) (digitsOf 0) (fun _ => rfl)
      (by decide)) (fun hz => absurd hz (by decide))
  · have hd := ofFloat_isDouble h hm
    obtain ⟨hpos, hsize, -, -⟩ := hd.shortest
    have hlo := hd.exponent_lower
    have hhi := hd.exponent_upper
    simp only [hm, if_false]
    rw [toString_toList]
    have hlen := (Nat.length_toDigits_le_iff (b := 10) (k := 18) (by decide) (by decide)).mpr
      (show (Magnitude.ofFloat x).shortest.1 < 10 ^ 18 by omega)
    have hmax : maxExponent = 2147483647 := rfl
    exact signedText (readsBack_write hpos (by omega) (by omega)) (shortest_scaled hd)

end TaskRelay.Json
