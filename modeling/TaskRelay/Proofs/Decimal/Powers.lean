import TaskRelay.Json.Number
import TaskRelay.Proofs.Decimal.Rounding

/-!
# Whole numbers times powers of ten

A whole number times a power of ten that is no fraction is rounded once when it is made a double.
Two such doubles have a finite product if the exact one lies below the largest double by some
units in its last place.
-/

set_option autoImplicit false

namespace TaskRelay.Decimal

open Float.Model Float.Model.UnpackedFloat

theorem round_exact (s : Sign) {m : Nat} {e : Int} (h : 0 < m) (hm : m.log2 = 52)
    (he : -1074 ≤ e) : roundWithAccuracy .binary64 s m e .exact = .finite s m e h := by
  have hx : excess m e = 0 := by
    rw [excess, hm]
    omega
  have hr : rounded m e = m := by
    rw [rounded, hx]
    rfl
  have hs : shiftToTargetExponent .binary64 m e .exact = (⟨m, false, false⟩, e) := by
    rw [shift_eq, hx]
    simp
    rfl
  rw [round_eq, hr, hx]
  simp only [Nat.cast_zero, Int.add_zero, hs]
  exact dif_neg h.ne'

theorem normalized {n : Nat} (h : 0 < n) (hn : n < 2 ^ 53) :
    2 ^ 52 ≤ n * 2 ^ (52 - n.log2) ∧ n * 2 ^ (52 - n.log2) < 2 ^ 53 := by
  have hl : n.log2 < 53 := (Nat.log2_lt h.ne').mpr hn
  have hpos := Nat.two_pow_pos (52 - n.log2)
  have hlo := Nat.mul_le_mul_right (2 ^ (52 - n.log2)) (Nat.log2_self_le h.ne')
  have hhi := Nat.mul_lt_mul_of_pos_right (Nat.lt_log2_self (n := n)) hpos
  rw [← Nat.pow_add] at hlo hhi
  have h52 : n.log2 + (52 - n.log2) = 52 := by omega
  have h53 : n.log2 + 1 + (52 - n.log2) = 53 := by omega
  rw [h52] at hlo
  rw [h53] at hhi
  exact ⟨hlo, hhi⟩

theorem round_whole {n : Nat} (h : 0 < n) (hn : n < 2 ^ 53) :
    UnpackedFloat.round .binary64 .positive n 0 =
      .finite .positive (n * 2 ^ (52 - n.log2)) (-((52 - n.log2 : Nat) : Int))
        (Nat.mul_pos h (Nat.two_pow_pos _)) := by
  obtain ⟨hlo, hhi⟩ := normalized h hn
  have hl : n.log2 < 53 := (Nat.log2_lt h.ne').mpr hn
  have ht : Format.binary64.targetExponent (totalExponent n 0) = -((52 - n.log2 : Nat) : Int) := by
    simp only [Format.targetExponent, totalExponent, Format.mantissaBits, Format.minExponent]
    norm_num
    omega
  have hd : decreaseExponent n 0 (-((52 - n.log2 : Nat) : Int)) =
      (n * 2 ^ (52 - n.log2), -((52 - n.log2 : Nat) : Int)) := by
    rw [decreaseExponent]
    simp [Nat.shiftLeft_eq]
  rw [UnpackedFloat.round, ht]
  simp only [hd]
  refine round_exact .positive _ ?_ (by omega)
  exact (Nat.log2_eq_iff (by omega)).mpr ⟨hlo, hhi⟩

theorem toFloat_within {n : UInt64} (h : 0 < n.toNat) (hn : n.toNat < 2 ^ 53) :
    n.toFloat.isFinite = true ∧ size n.toFloat.toModel.unpack = n.toNat := by
  obtain ⟨hlo, hhi⟩ := normalized h hn
  have hu : n.toFloat.toModel.unpack = .finite .positive (n.toNat * 2 ^ (52 - n.toNat.log2))
      (-((52 - n.toNat.log2 : Nat) : Int)) (Nat.mul_pos h (Nat.two_pow_pos _)) := by
    have hr : UnpackedFloat.ofUInt64 .binary64 n =
        UnpackedFloat.round .binary64 .positive n.toNat 0 := by
      have hc : compare (n.toNat : Int) 0 = .gt := compare_gt_iff_gt.mpr (by omega)
      rw [UnpackedFloat.ofUInt64, UnpackedFloat.ofNat, UnpackedFloat.ofInt, UnpackedFloat.normalize,
        hc]
      rfl
    change (Float.Model.pack (UnpackedFloat.ofUInt64 .binary64 n)).unpack = _
    rw [hr, round_whole h hn, unpack_pack_normal _ _ hlo hhi (by omega) (by omega)]
  refine ⟨?_, ?_⟩
  · change n.toFloat.toModel.unpack.isFinite = true
    rw [hu]
    rfl
  · rw [hu, size, zpow_neg, zpow_natCast]
    push_cast
    exact mul_inv_cancel_right₀ (by positivity) _

def isWhole (u : UnpackedFloat) (n : Nat) : Bool :=
  match u with
  | .finite _ m e _ => m * 2 ^ e.toNat == n * 2 ^ (-e).toNat
  | _ => false

theorem size_of_isWhole {u : UnpackedFloat} {n : Nat} (h : isWhole u n = true) :
    u.isFinite = true ∧ size u = n := by
  cases u with
  | finite s m e hm =>
    refine ⟨rfl, ?_⟩
    have he : (m * 2 ^ e.toNat : ℚ) = n * 2 ^ (-e).toNat := by exact_mod_cast beq_iff_eq.mp h
    have hz : (2 : ℚ) ^ e = 2 ^ e.toNat / 2 ^ (-e).toNat := by
      rw [← zpow_natCast, ← zpow_natCast, ← zpow_sub₀ (by norm_num)]
      congr 1
      omega
    rw [size, hz, mul_div_assoc', he]
    exact mul_div_cancel_right₀ _ (by positivity)
  | _ => cases h

theorem table_whole {k : Nat} (hk : k < Float.exactlyRepresentablePowersOfTen.size) :
    isWhole Float.exactlyRepresentablePowersOfTen[k].toModel.unpack (10 ^ k) = true := by
  have h : ∀ k : Fin 23,
      isWhole Float.exactlyRepresentablePowersOfTen[k].toModel.unpack (10 ^ k.val) = true := by
    decide +kernel
  exact h ⟨k, hk⟩

theorem exact_within {m k : Nat} (hm : 0 < m) (hlt : m < 2 ^ 53)
    (hk : k < Float.exactlyRepresentablePowersOfTen.size) (h : (m * 10 ^ k : ℚ) < overflow) :
    (m.toUInt64.toFloat * Float.exactlyRepresentablePowersOfTen[k]).isFinite = true ∧
      size (m.toUInt64.toFloat * Float.exactlyRepresentablePowersOfTen[k]).toModel.unpack ≤
        m * 10 ^ k * (1 + 1 / 2 ^ 52) := by
  have hn : m.toUInt64.toNat = m := Nat.mod_eq_of_lt (by omega)
  obtain ⟨hx, hxs⟩ := toFloat_within (n := m.toUInt64) (by omega) (by omega)
  obtain ⟨hy, hys⟩ := size_of_isWhole (table_whole hk)
  have hv : size m.toUInt64.toFloat.toModel.unpack *
      size Float.exactlyRepresentablePowersOfTen[k].toModel.unpack = m * 10 ^ k := by
    rw [hxs, hn, hys, Nat.cast_pow]
    rfl
  have hone : (1 : ℚ) ≤ m * 10 ^ k := by exact_mod_cast Nat.mul_pos hm (Nat.pow_pos (by decide))
  obtain ⟨hfin, hle⟩ := mul_within hx hy (hv ▸ h)
  rw [hv] at hle
  exact ⟨hfin, hle hone⟩

theorem rounded_within {m k : Nat} (hm : 0 < m) (hk : k ≤ 2048)
    (h : (m * 10 ^ k : ℚ) < overflow) :
    (Float.Model.ofScientific m (Int.ofNat k)).unpack.isFinite = true ∧
      size (Float.Model.ofScientific m (Int.ofNat k)).unpack ≤ m * 10 ^ k * (1 + 1 / 2 ^ 52) := by
  have hp : 0 < 10 ^ k := Nat.pow_pos (by decide)
  have hu : UnpackedFloat.ofScientific .binary64 m (Int.ofNat k) =
      roundWithAccuracy .binary64 .positive (m <<< 53 * 10 ^ k) (-53) .exact := by
    rw [UnpackedFloat.ofScientific, dif_neg hm.ne', if_neg, if_neg, if_pos]
    · rfl
    · exact Int.natCast_nonneg k
    · change ¬(k : Int) < -(2 ^ 11 + (m.log2 : Int))
      omega
    · change ¬(k : Int) > 2 ^ 11
      omega
  have hb : m <<< 53 * 10 ^ k = m * 10 ^ k * 2 ^ 53 := by
    rw [Nat.shiftLeft_eq, Nat.mul_right_comm]
  have hone : 1 ≤ m * 10 ^ k := Nat.mul_pos hm hp
  have hv : ((m <<< 53 * 10 ^ k : Nat) : ℚ) * 2 ^ (-53 : Int) = m * 10 ^ k := by
    rw [hb]
    push_cast
    exact mul_inv_cancel_right₀ (by norm_num) _
  have hc : 52 ≤ (m <<< 53 * 10 ^ k).log2 := by
    rw [hb]
    exact (Nat.le_log2 (by omega)).mpr (by omega)
  have hne : m <<< 53 * 10 ^ k ≠ 0 := by
    rw [hb]
    omega
  obtain ⟨hfin, hle⟩ := round_within .positive hne (Or.inl hc) (hv ▸ h)
  rw [hv] at hle
  rw [Float.Model.ofScientific, hu]
  exact ⟨hfin, hle (by exact_mod_cast hone)⟩

/-- A whole number times a power of ten is made a double with one rounding. -/
theorem ofScientific_within {m k : Nat} (hm : 0 < m) (hk : k ≤ 2048)
    (h : (m * 10 ^ k : ℚ) < overflow) :
    (Float.ofScientific m false k).isFinite = true ∧
      size (Float.ofScientific m false k).toModel.unpack ≤ m * 10 ^ k * (1 + 1 / 2 ^ 52) := by
  rw [Float.ofScientific]
  split
  · next hs => exact exact_within hm hs.1 (Nat.lt_succ_of_le hs.2) h
  · exact rounded_within hm hk h

theorem isInf_of_isFinite {x : Float} (h : x.isFinite = true) : x.isInf = false := by
  change x.toModel.unpack.isFinite = true at h
  change x.toModel.unpack.isInf = false
  cases hu : x.toModel.unpack with
  | infinity s =>
    rw [hu] at h
    cases h
  | _ => rfl

/-- Eight units in the last place below the largest double nothing overflows any more, although
both factors and their product are rounded. -/
theorem scaled_up_isFinite {c k : Nat} (hc : 0 < c) (hk : k ≤ 2048)
    (h : (c * 10 ^ k : ℚ) ≤ (2 ^ 54 - 17) * 2 ^ (970 : Int)) :
    (Float.ofNat c * Json.powerOfTen k).isFinite = true := by
  have hc1 : (1 : ℚ) ≤ c := by exact_mod_cast hc
  have hk1 : (1 : ℚ) ≤ 10 ^ k := one_le_pow₀ (by norm_num)
  have hlim : (2 ^ 54 - 17) * 2 ^ (970 : Int) < overflow :=
    mul_lt_mul_of_pos_right (by norm_num) (by positivity)
  have hx := ofScientific_within (k := 0) hc (by omega) (by nlinarith)
  have hy := ofScientific_within (m := 1) Nat.one_pos hk (by push_cast; nlinarith)
  rw [pow_zero, mul_one] at hx
  rw [Nat.cast_one, one_mul] at hy
  refine (mul_within hx.1 hy.1 ?_).1
  calc size (Float.ofScientific c false 0).toModel.unpack *
        size (Float.ofScientific 1 false k).toModel.unpack
      ≤ c * (1 + 1 / 2 ^ 52) * (10 ^ k * (1 + 1 / 2 ^ 52)) :=
        mul_le_mul hx.2 hy.2 (size_nonneg _) (by positivity)
    _ = c * 10 ^ k * (1 + 1 / 2 ^ 52) ^ 2 := by ring
    _ ≤ (2 ^ 54 - 17) * 2 ^ (970 : Int) * (1 + 1 / 2 ^ 52) ^ 2 :=
        mul_le_mul_of_nonneg_right h (by positivity)
    _ = (2 ^ 54 - 17) * (1 + 1 / 2 ^ 52) ^ 2 * 2 ^ (970 : Int) := by ring
    _ < overflow := mul_lt_mul_of_pos_right (by norm_num) (by positivity)

end TaskRelay.Decimal
