import Mathlib

/-!
# Products of doubles that stay finite

A product of two finite doubles is exact up to one rounding. It is finite if the exact product
lies below `overflow`, half way between the largest double and the power of two behind it, and a
product of at least one is too large by a part in 2⁵² at most. A mantissa is shifted twice: what
the first shift rounds up may be one bit too long.
-/

set_option autoImplicit false

namespace TaskRelay.Decimal

open Float.Model Float.Model.UnpackedFloat

def size : UnpackedFloat → ℚ
  | .finite _ m e _ => m * 2 ^ e
  | _ => 0

theorem size_nonneg (u : UnpackedFloat) : 0 ≤ size u := by
  cases u with
  | finite s m e h =>
    rw [size]
    positivity
  | _ => exact le_rfl

def overflow : ℚ := (2 ^ 54 - 1) * 2 ^ (970 : Int)

theorem shift_mantissa (em : ExtendedMantissa) (k : Nat) :
    (em >>> k).mantissa = em.mantissa / 2 ^ k := by
  induction k with
  | zero => exact (Nat.div_one _).symm
  | succ k ih =>
    change (em >>> k).mantissa / 2 = _
    rw [ih, Nat.div_div_eq_div_mul, Nat.pow_succ]

theorem rounded_le (em : ExtendedMantissa) :
    em.roundedMantissa ≤ em.mantissa + em.roundBit.toNat := by
  obtain ⟨m, r, s⟩ := em
  cases r <;> cases s <;>
    simp only [ExtendedMantissa.roundedMantissa, ExtendedMantissa.accuracy,
      Accuracy.roundToNearestEven, Bool.toNat_false, Bool.toNat_true] <;> omega

/-- An exact mantissa is rounded up no further than from a half on. -/
theorem rounded_shift_le (m k : Nat) :
    ((⟨m, false, false⟩ : ExtendedMantissa) >>> (k + 1)).roundedMantissa ≤
      (m / 2 ^ k + 1) / 2 := by
  have h := rounded_le ((⟨m, false, false⟩ : ExtendedMantissa) >>> (k + 1))
  have hm : ((⟨m, false, false⟩ : ExtendedMantissa) >>> (k + 1)).mantissa = m / 2 ^ k / 2 := by
    rw [shift_mantissa, Nat.div_div_eq_div_mul, Nat.pow_succ]
  have hb : ((⟨m, false, false⟩ : ExtendedMantissa) >>> (k + 1)).roundBit =
      (m / 2 ^ k % 2 != 0) := by
    change (((⟨m, false, false⟩ : ExtendedMantissa) >>> k).mantissa % 2 != 0) = _
    rw [shift_mantissa]
  rw [hm, hb] at h
  rcases Nat.mod_two_eq_zero_or_one (m / 2 ^ k) with h0 | h1
  · rw [h0] at h
    simp only [bne_self_eq_false, Bool.toNat_false] at h
    omega
  · rw [h1] at h
    simp at h
    omega

/-- By how much a mantissa is shifted to have 53 bits, or fewer at the least exponent. -/
def excess (m : Nat) (e : Int) : Nat := (max ((m.log2 : Int) + e - 52) (-1074) - e).toNat

theorem shift_eq (m : Nat) (e : Int) :
    shiftToTargetExponent .binary64 m e .exact =
      ((⟨m, false, false⟩ : ExtendedMantissa) >>> excess m e, e + excess m e) := by
  have ht : Format.binary64.targetExponent (totalExponent m e) =
      max ((m.log2 : Int) + e - 52) (-1074) := by
    simp only [Format.targetExponent, totalExponent, Format.mantissaBits, Format.minExponent]
    norm_num
    omega
  rw [shiftToTargetExponent, ht]
  rfl

def rounded (m : Nat) (e : Int) : Nat :=
  ((⟨m, false, false⟩ : ExtendedMantissa) >>> excess m e).roundedMantissa

theorem round_eq (s : Sign) (m : Nat) (e : Int) :
    roundWithAccuracy .binary64 s m e .exact =
      let p := shiftToTargetExponent .binary64 (rounded m e) (e + excess m e) .exact
      if h : p.1.mantissa = 0 then .zero s
      else .finite s p.1.mantissa p.2 (Nat.pos_of_ne_zero h) := by
  rw [roundWithAccuracy, shift_eq]
  rfl

theorem round_cases (s : Sign) (m : Nat) (e : Int) :
    roundWithAccuracy .binary64 s m e .exact = .zero s ∨
    ∃ r k, ∃ h : 0 < r, r = rounded m e / 2 ^ k ∧ k = excess (rounded m e) (e + excess m e) ∧
      roundWithAccuracy .binary64 s m e .exact = .finite s r (e + excess m e + k) h := by
  rw [round_eq, shift_eq]
  dsimp only
  split
  · exact Or.inl rfl
  · next h => exact Or.inr ⟨_, _, Nat.pos_of_ne_zero h, shift_mantissa _ _, rfl, rfl⟩

theorem shifted_lt (m : Nat) (e : Int) : m / 2 ^ excess m e < 2 ^ 53 := by
  rw [Nat.div_lt_iff_lt_mul (Nat.two_pow_pos _), ← Nat.pow_add]
  refine lt_of_lt_of_le Nat.lt_log2_self (Nat.pow_le_pow_right (by decide) ?_)
  rw [excess]
  omega

theorem rounded_le_succ (m : Nat) (e : Int) : rounded m e ≤ m / 2 ^ excess m e + 1 := by
  have h := rounded_le ((⟨m, false, false⟩ : ExtendedMantissa) >>> excess m e)
  rw [shift_mantissa] at h
  exact h.trans (Nat.add_le_add_left (Bool.toNat_le _) _)

theorem log2_lt_add {m : Nat} {e n : Int} (hm : m ≠ 0) (h : (m : ℚ) * 2 ^ e < 2 ^ n) :
    (m.log2 : Int) + e < n := by
  have hl : (2 : ℚ) ^ (m.log2 : Int) ≤ m := by
    rw [zpow_natCast]
    exact_mod_cast Nat.log2_self_le hm
  have hp : (0 : ℚ) < 2 ^ e := by positivity
  have hlt : (2 : ℚ) ^ ((m.log2 : Int) + e) < 2 ^ n := by
    rw [zpow_add₀ (by norm_num)]
    exact lt_of_le_of_lt (mul_le_mul_of_nonneg_right hl hp.le) h
  exact (zpow_lt_zpow_iff_right₀ (by norm_num)).mp hlt

theorem log2_le_of_lt {n k : Nat} (h : n < 2 ^ (k + 1)) : n.log2 ≤ k := by
  rcases eq_or_ne n 0 with rfl | hn
  · rw [Nat.log2_zero]
    exact Nat.zero_le k
  · exact Nat.le_of_lt_succ ((Nat.log2_lt hn).mpr h)

/-- With the largest exponent the mantissa is not rounded up to a further bit. -/
theorem rounded_lt {m : Nat} {e : Int} (hf : e + excess m e = 971)
    (h : (m : ℚ) * 2 ^ e < overflow) : rounded m e < 2 ^ 53 := by
  have hle := rounded_le ((⟨m, false, false⟩ : ExtendedMantissa) >>> excess m e)
  have hhalf := rounded_shift_le m
  rw [rounded]
  cases hk : excess m e with
  | zero =>
    rw [hk] at hf hle
    have he : e = 1 + 970 := by omega
    rw [he, overflow, zpow_add₀ (by norm_num), ← mul_assoc] at h
    have hm : (m : ℚ) * 2 < 2 ^ 54 - 1 := by simpa using lt_of_mul_lt_mul_right h (by positivity)
    have hn : m * 2 < 2 ^ 54 - 1 := by
      norm_num at hm ⊢
      exact_mod_cast hm
    have hz : (((⟨m, false, false⟩ : ExtendedMantissa) >>> 0).roundedMantissa) ≤ m := hle
    omega
  | succ j =>
    rw [hk] at hf
    have he : e = -(j : Int) + 970 := by omega
    rw [he, overflow, zpow_add₀ (by norm_num), ← mul_assoc] at h
    have hm : (m : ℚ) * 2 ^ (-(j : Int)) < 2 ^ 54 - 1 := lt_of_mul_lt_mul_right h (by positivity)
    rw [zpow_neg, zpow_natCast, ← div_eq_mul_inv, div_lt_iff₀ (by positivity)] at hm
    have hn : m < (2 ^ 54 - 1) * 2 ^ j := by
      norm_num at hm ⊢
      exact_mod_cast hm
    have hd : m / 2 ^ j < 2 ^ 54 - 1 := (Nat.div_lt_iff_lt_mul (Nat.two_pow_pos j)).mpr hn
    have := hhalf j
    omega

/-- What is nearer to the largest double than to the power of two behind it has no exponent
beyond the range. -/
theorem exponent_le {m : Nat} {e : Int} (hm : m ≠ 0) (hc : 52 ≤ m.log2 ∨ e ≤ -1074)
    (h : (m : ℚ) * 2 ^ e < overflow) :
    e + excess m e + excess (rounded m e) (e + excess m e) ≤ 971 := by
  have hf : e + excess m e = max ((m.log2 : Int) + e - 52) (-1074) := by
    rw [excess]
    omega
  have hlog : (m.log2 : Int) + e < 1024 := by
    refine log2_lt_add hm (h.trans ?_)
    rw [overflow, show (1024 : Int) = 54 + 970 by rfl, zpow_add₀ (by norm_num)]
    exact mul_lt_mul_of_pos_right (by norm_num) (by positivity)
  have hlong : (rounded m e).log2 ≤ 53 := by
    have hle := rounded_le_succ m e
    have hlt := shifted_lt m e
    exact log2_le_of_lt (by omega)
  have hr : e + excess m e < 971 ∨ (rounded m e).log2 ≤ 52 := by
    rcases Int.lt_or_le (e + excess m e) 971 with hlt | hge
    · exact Or.inl hlt
    · exact Or.inr (log2_le_of_lt (rounded_lt (by omega) h))
  have hk : excess (rounded m e) (e + excess m e) =
      (max (((rounded m e).log2 : Int) + (e + excess m e) - 52) (-1074) -
        (e + excess m e)).toNat := rfl
  omega

theorem toNat_one_append (m : BitVec 52) : (1#1 ++ m).toNat = 2 ^ 52 + m.toNat := by
  rw [BitVec.toNat_append, ← Nat.shiftLeft_add_eq_or_of_lt m.isLt]
  rfl

theorem unpack_packComponents (s : Sign) (e : BitVec 11) (m : BitVec 52) :
    UnpackedFloat.unpack .binary64 (packComponents .binary64 s e m) =
      if e = -1#11 then if m = 0#52 then .infinity s else .notANumber
      else if e = 0#11 then
        if h : m = 0#52 then .zero s
        else .finite s m.toNat (-1074) (Nat.pos_of_ne_zero fun hz => h (BitVec.eq_of_toNat_eq hz))
      else .finite s (2 ^ 52 + m.toNat) (e.toNat - 1075) (by omega) := by
  rw [UnpackedFloat.unpack]
  simp only [unpackMantissa_packComponents, unpackExponent_packComponents,
    unpackSign_packComponents, Sign.ofBitVec_toBitVec]
  split
  · rfl
  · split
    · next he =>
      subst he
      rfl
    · simp only [toNat_one_append]
      rfl

theorem pack_eq (s : Sign) {m : Nat} {e : Int} (h : 0 < m) (hle : e ≤ 971) :
    UnpackedFloat.pack .binary64 (.finite s m e h) =
      packComponents .binary64 s (if m.log2 = 52 then BitVec.ofNat 11 (e + 1075).toNat else 0#11)
        (BitVec.ofNat 52 m) := by
  have hbias : (e + Format.binary64.exponentBias +
      Format.binary64.mantissaBitsWithoutImplicit).toNat = (e + 1075).toNat := by
    change (e + (2 ^ (11 - 1) - 1 : Nat) + (52 : Nat)).toNat = (e + 1075).toNat
    omega
  have hb : (m.log2 + 1 = Format.binary64.mantissaBits) ↔ m.log2 = 52 := by
    change m.log2 + 1 = 53 ↔ _
    omega
  rw [UnpackedFloat.pack]
  simp only [hbias, hb]
  rw [if_neg (by omega)]
  split <;> rfl

theorem unpack_pack_normal (s : Sign) {m : Nat} {e : Int} (h : 0 < m) (hlo : 2 ^ 52 ≤ m)
    (hhi : m < 2 ^ 53) (he : -1074 ≤ e) (hle : e ≤ 971) :
    (Float.Model.pack (.finite s m e h)).unpack = .finite s m e h := by
  have hlog : m.log2 = 52 := (Nat.log2_eq_iff h.ne').mpr ⟨hlo, hhi⟩
  have hb : (BitVec.ofNat 11 (e + 1075).toNat).toNat = (e + 1075).toNat := by
    rw [BitVec.toNat_ofNat]
    omega
  have hm : (BitVec.ofNat 52 m).toNat = m - 2 ^ 52 := by
    rw [BitVec.toNat_ofNat]
    omega
  have hne (c : BitVec 11) (hc : c.toNat ≠ (e + 1075).toNat) :
      BitVec.ofNat 11 (e + 1075).toNat ≠ c := fun hz => hc (by rw [← hz, hb])
  have hmax : (-1#11).toNat = 2047 := rfl
  have hzero : (0#11).toNat = 0 := rfl
  change UnpackedFloat.unpack .binary64 (UnpackedFloat.pack .binary64 (.finite s m e h)) = _
  rw [pack_eq s h hle, if_pos hlog, unpack_packComponents, if_neg (hne _ (by omega)),
    if_neg (hne _ (by omega))]
  simp only [hb, hm, finite.injEq, true_and]
  omega

/-- Packing keeps a value that is in range, or at least makes it no larger. -/
theorem unpack_pack_le (s : Sign) {m : Nat} {e : Int} (h : 0 < m) (hm : m < 2 ^ 53)
    (he : -1074 ≤ e) (hle : e ≤ 971) :
    (Float.Model.pack (.finite s m e h)).unpack.isFinite = true ∧
      size (Float.Model.pack (.finite s m e h)).unpack ≤ m * 2 ^ e := by
  by_cases hlog : m.log2 = 52
  · obtain ⟨hlo, -⟩ := (Nat.log2_eq_iff h.ne').mp hlog
    rw [unpack_pack_normal s h hlo hm he hle]
    exact ⟨rfl, le_rfl⟩
  · have hv : (0 : ℚ) ≤ m * 2 ^ e := by positivity
    have hb : (BitVec.ofNat 52 m).toNat ≤ m := by
      rw [BitVec.toNat_ofNat]
      exact Nat.mod_le _ _
    change UnpackedFloat.isFinite (UnpackedFloat.unpack .binary64
      (UnpackedFloat.pack .binary64 (.finite s m e h))) = true ∧
        size (UnpackedFloat.unpack .binary64 (UnpackedFloat.pack .binary64 (.finite s m e h))) ≤ _
    rw [pack_eq s h hle, if_neg hlog, unpack_packComponents, if_neg (by decide), if_pos rfl]
    split
    · exact ⟨rfl, hv⟩
    · refine ⟨rfl, ?_⟩
      exact mul_le_mul (by exact_mod_cast hb) (zpow_le_zpow_right₀ (by norm_num) he)
        (by positivity) (by positivity)

theorem excess_eq {m : Nat} {e : Int} (hc : 52 ≤ m.log2 ∨ e ≤ -1074)
    (h : 1 ≤ (m : ℚ) * 2 ^ e) : excess m e + 52 = m.log2 := by
  have hlt : (1 : ℚ) < 2 ^ ((m.log2 : Int) + 1 + e) := by
    rw [zpow_add₀ (by norm_num)]
    refine h.trans_lt (mul_lt_mul_of_pos_right ?_ (by positivity))
    exact_mod_cast Nat.lt_log2_self (n := m)
  have hpos : 0 < (m.log2 : Int) + 1 + e := by
    by_contra hneg
    exact absurd hlt (not_lt.mpr (zpow_le_one_of_nonpos₀ (by norm_num) (by omega)))
  rw [excess]
  omega

/-- A value of at least one grows by a part in 2⁵² at most when its mantissa is rounded. -/
theorem rounded_value_le {m : Nat} {e : Int} (hm : m ≠ 0) (hc : 52 ≤ m.log2 ∨ e ≤ -1074)
    (h : 1 ≤ (m : ℚ) * 2 ^ e) :
    (rounded m e : ℚ) * 2 ^ (e + excess m e) ≤ m * 2 ^ e * (1 + 1 / 2 ^ 52) := by
  have hx := excess_eq hc h
  have hle := rounded_le_succ m e
  have hunit : 2 ^ excess m e * 2 ^ 52 ≤ m := by
    rw [← Nat.pow_add, hx]
    exact Nat.log2_self_le hm
  have hnat : rounded m e * 2 ^ excess m e ≤ m + 2 ^ excess m e := by
    have hd := Nat.div_mul_le_self m (2 ^ excess m e)
    have := Nat.mul_le_mul_right (2 ^ excess m e) hle
    rw [Nat.add_mul, Nat.one_mul] at this
    omega
  have hq : (rounded m e : ℚ) * 2 ^ excess m e ≤ m * (1 + 1 / 2 ^ 52) := by
    have hn : (rounded m e : ℚ) * 2 ^ excess m e ≤ m + 2 ^ excess m e := by exact_mod_cast hnat
    have hu : (2 : ℚ) ^ excess m e * 2 ^ 52 ≤ m := by exact_mod_cast hunit
    linarith
  calc (rounded m e : ℚ) * 2 ^ (e + excess m e)
      = rounded m e * 2 ^ excess m e * 2 ^ e := by
        rw [zpow_add₀ (by norm_num), zpow_natCast]
        ring
    _ ≤ m * (1 + 1 / 2 ^ 52) * 2 ^ e := mul_le_mul_of_nonneg_right hq (by positivity)
    _ = m * 2 ^ e * (1 + 1 / 2 ^ 52) := by ring

/-- A value that is nearer to the largest double than to the power of two behind it stays finite
when it is rounded. From one on it grows by a part in 2⁵² at most. -/
theorem round_within (s : Sign) {m : Nat} {e : Int} (hm : m ≠ 0)
    (hc : 52 ≤ m.log2 ∨ e ≤ -1074) (h : (m : ℚ) * 2 ^ e < overflow) :
    (Float.Model.pack (roundWithAccuracy .binary64 s m e .exact)).unpack.isFinite = true ∧
      (1 ≤ (m : ℚ) * 2 ^ e →
        size (Float.Model.pack (roundWithAccuracy .binary64 s m e .exact)).unpack ≤
          m * 2 ^ e * (1 + 1 / 2 ^ 52)) := by
  rcases round_cases s m e with hz | ⟨r, k, hr, hrk, hk, heq⟩
  · rw [hz]
    cases s <;> exact ⟨rfl, fun _ => show (0 : ℚ) ≤ _ by positivity⟩
  · rw [heq]
    have hlt : r < 2 ^ 53 := by
      rw [hrk, hk]
      exact shifted_lt _ _
    have hlo : -1074 ≤ e + excess m e + k := by
      rw [excess]
      omega
    have hhi : e + excess m e + k ≤ 971 := hk ▸ exponent_le hm hc h
    obtain ⟨hfin, hle⟩ := unpack_pack_le s hr hlt hlo hhi
    have hcut : (r : ℚ) * 2 ^ k ≤ rounded m e := by
      rw [hrk]
      exact_mod_cast Nat.div_mul_le_self _ _
    refine ⟨hfin, fun hone => hle.trans ?_⟩
    calc (r : ℚ) * 2 ^ (e + excess m e + k)
        = r * 2 ^ k * 2 ^ (e + excess m e) := by
          rw [zpow_add₀ (by norm_num) _ (k : Int), zpow_natCast]
          ring
      _ ≤ rounded m e * 2 ^ (e + excess m e) := mul_le_mul_of_nonneg_right hcut (by positivity)
      _ ≤ m * 2 ^ e * (1 + 1 / 2 ^ 52) := rounded_value_le hm hc hone

theorem unpack_shape (x : Float.Model) {s : Sign} {m : Nat} {e : Int} {h : 0 < m}
    (hx : x.unpack = .finite s m e h) : m.log2 = 52 ∨ e = -1074 := by
  have hlt : (@unpackMantissa .binary64 x.toBits.toBitVec).toNat < 2 ^ 52 :=
    (@unpackMantissa .binary64 x.toBits.toBitVec).isLt
  change UnpackedFloat.unpack .binary64 x.toBits.toBitVec = _ at hx
  rw [UnpackedFloat.unpack] at hx
  split at hx
  · split at hx <;> cases hx
  · split at hx
    · next hz =>
      split at hx
      · cases hx
      · cases hx
        rw [hz]
        exact Or.inr rfl
    · cases hx
      rw [toNat_one_append]
      exact Or.inl ((Nat.log2_eq_iff (by omega)).mpr ⟨by omega, by omega⟩)

theorem product_within (s t : Sign) {m n : Nat} {e f : Int} (hm : 0 < m) (hn : 0 < n)
    (he : m.log2 = 52 ∨ e = -1074) (hf : n.log2 = 52 ∨ f = -1074)
    (h : (m * 2 ^ e : ℚ) * (n * 2 ^ f) < overflow) :
    let u := (Float.Model.pack (UnpackedFloat.mul .binary64 (.finite s m e hm)
      (.finite t n f hn))).unpack
    u.isFinite = true ∧ (1 ≤ (m * 2 ^ e : ℚ) * (n * 2 ^ f) →
      size u ≤ (m * 2 ^ e : ℚ) * (n * 2 ^ f) * (1 + 1 / 2 ^ 52)) := by
  have hv : (m * 2 ^ e : ℚ) * (n * 2 ^ f) = ((m * n : Nat) : ℚ) * 2 ^ (e + f) := by
    rw [zpow_add₀ (by norm_num)]
    push_cast
    ring
  have hmn : m * n ≠ 0 := (Nat.mul_pos hm hn).ne'
  have hc : 52 ≤ (m * n).log2 ∨ e + f ≤ -1074 := by
    have long {a b : Nat} (ha : a.log2 = 52) (hle : a ≤ b) : 52 ≤ b.log2 := by
      have := Nat.log2_self_le (n := a) (by rintro rfl; cases ha)
      rw [ha] at this
      exact (Nat.le_log2 (by omega)).mpr (this.trans hle)
    rcases he with he | he
    · exact Or.inl (long he (Nat.le_mul_of_pos_right m hn))
    · rcases hf with hf | hf
      · exact Or.inl (long hf (Nat.le_mul_of_pos_left n hm))
      · omega
  rw [hv] at h ⊢
  exact round_within (s * t) hmn hc h

theorem unpack_pack_zero (s : Sign) : (Float.Model.pack (.zero s)).unpack = .zero s := by
  cases s <;> rfl

theorem mul_of_zero {u v : UnpackedFloat} (hu : u.isFinite = true) (hv : v.isFinite = true)
    (h : size u * size v = 0) : ∃ s, UnpackedFloat.mul .binary64 u v = .zero s := by
  cases u with
  | infinity s => cases hu
  | notANumber => cases hu
  | zero s =>
    cases v with
    | infinity t => cases hv
    | notANumber => cases hv
    | zero t => exact ⟨s * t, by rw [UnpackedFloat.mul]⟩
    | finite t n f hn => exact ⟨s * t, by rw [UnpackedFloat.mul]⟩
  | finite s m e hm =>
    cases v with
    | infinity t => cases hv
    | notANumber => cases hv
    | zero t => exact ⟨s * t, by rw [UnpackedFloat.mul]⟩
    | finite t n f hn =>
      have hpos : 0 < (m * 2 ^ e : ℚ) * (n * 2 ^ f) := by positivity
      exact absurd h hpos.ne'

/-- A product of finite doubles is finite if it is nearer to the largest double than to the
power of two behind it, and too large by a part in 2⁵² at most if it is at least one. -/
theorem mul_within {x y : Float} (hx : x.isFinite = true) (hy : y.isFinite = true)
    (h : size x.toModel.unpack * size y.toModel.unpack < overflow) :
    (x * y).isFinite = true ∧ (1 ≤ size x.toModel.unpack * size y.toModel.unpack →
      size (x * y).toModel.unpack ≤
        size x.toModel.unpack * size y.toModel.unpack * (1 + 1 / 2 ^ 52)) := by
  change x.toModel.unpack.isFinite = true at hx
  change y.toModel.unpack.isFinite = true at hy
  have hxs (s m e hm) := unpack_shape x.toModel (s := s) (m := m) (e := e) (h := hm)
  have hys (s m e hm) := unpack_shape y.toModel (s := s) (m := m) (e := e) (h := hm)
  change (Float.Model.pack (UnpackedFloat.mul .binary64 x.toModel.unpack
    y.toModel.unpack)).unpack.isFinite = true ∧ (_ →
      size (Float.Model.pack (UnpackedFloat.mul .binary64 x.toModel.unpack
        y.toModel.unpack)).unpack ≤ _)
  generalize x.toModel.unpack = u at hx hxs h ⊢
  generalize y.toModel.unpack = v at hy hys h ⊢
  by_cases hz : size u * size v = 0
  · obtain ⟨s, hs⟩ := mul_of_zero hx hy hz
    rw [hs, unpack_pack_zero, hz]
    exact ⟨rfl, fun hone => absurd hone (by norm_num)⟩
  · cases u with
    | finite s m e hm =>
      cases v with
      | finite t n f hn =>
        exact product_within s t hm hn (hxs s m e hm rfl) (hys t n f hn rfl) h
      | _ => exact absurd (mul_zero _) hz
    | _ => exact absurd (zero_mul _) hz

end TaskRelay.Decimal
