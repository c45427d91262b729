import Mathlib.Algebra.Order.Field.Power
import Mathlib.Tactic.Linarith
import Mathlib.Tactic.NormNum
import Mathlib.Tactic.Positivity
import Mathlib.Tactic.Ring
import TaskRelay.Decimal.Shortest

/-!
# The shortest digits

Seventeen digits always suffice: the grid they stand on is finer than the interval of numbers
that round to a double. So the digits found stand for a number of that interval, and they fit
64 bits.
-/

set_option autoImplicit false

namespace TaskRelay.Decimal

theorem scaleParts_eq (i j : Int) :
    ((scaleParts i j).1 : ℚ) = 2 ^ i * 10 ^ j * (scaleParts i j).2 := by
  have part (b : ℚ) (hb : b ≠ 0) (n : Int) : b ^ n.toNat = b ^ n * b ^ (-n).toNat := by
    rw [← zpow_natCast, ← zpow_natCast, ← zpow_add₀ hb]
    congr 1
    omega
  simp only [scaleParts, Nat.pow_eq, Nat.cast_mul, Nat.cast_pow, Nat.cast_ofNat]
  rw [part 2 (by norm_num) i, part 10 (by norm_num) j]
  ring

theorem scaleParts_pos (i j : Int) : 0 < (scaleParts i j).2 :=
  Nat.mul_pos (Nat.pow_pos (by decide)) (Nat.pow_pos (by decide))

theorem compareScaled_eq (a : Nat) (i : Int) (b : Nat) (j : Int) :
    ∃ up down : Nat, compareScaled a i b j = compare up down ∧ ∃ d : ℚ, 0 < d ∧
      (up : ℚ) = a * 2 ^ i * d ∧ (down : ℚ) = b * 10 ^ j * d := by
  have hd : (0 : ℚ) < (scaleParts i (-j)).2 := by exact_mod_cast scaleParts_pos i (-j)
  refine ⟨a * (scaleParts i (-j)).1, b * (scaleParts i (-j)).2, rfl,
    (scaleParts i (-j)).2 * 10 ^ (-j), by positivity, ?_, ?_⟩
  · rw [Nat.cast_mul, scaleParts_eq]
    ring
  · rw [Nat.cast_mul, mul_comm ((scaleParts i (-j)).2 : ℚ), ← mul_assoc, mul_assoc (b : ℚ),
      ← zpow_add₀ (by norm_num), Int.add_right_neg, zpow_zero, mul_one]

section
variable {a b : Nat} {i j : Int}

theorem compareScaled_lt : compareScaled a i b j = .lt ↔ (a * 2 ^ i : ℚ) < b * 10 ^ j := by
  obtain ⟨up, down, h, d, hd, hu, hw⟩ := compareScaled_eq a i b j
  rw [h, Nat.compare_eq_lt, ← mul_lt_mul_iff_of_pos_right hd, ← hu, ← hw, Nat.cast_lt]

theorem compareScaled_gt : compareScaled a i b j = .gt ↔ (b * 10 ^ j : ℚ) < a * 2 ^ i := by
  obtain ⟨up, down, h, d, hd, hu, hw⟩ := compareScaled_eq a i b j
  rw [h, Nat.compare_eq_gt, ← mul_lt_mul_iff_of_pos_right hd, ← hu, ← hw, Nat.cast_lt]

theorem compareScaled_same : compareScaled a i b j = .eq ↔ (a * 2 ^ i : ℚ) = b * 10 ^ j := by
  obtain ⟨up, down, h, d, hd, hu, hw⟩ := compareScaled_eq a i b j
  rw [h, Nat.compare_eq_eq, ← mul_left_inj' hd.ne', ← hu, ← hw, Nat.cast_inj]

end

namespace Magnitude

variable (v : Magnitude)

def value : ℚ := v.mantissa * 2 ^ v.exponent

/-- The lower end of the interval of numbers that round to the value, in quarters of a unit. -/
def low : Nat :=
  4 * v.mantissa - if v.mantissa = leadingBit ∧ v.exponent > -1074 then 1 else 2

theorem reads_eq (c : Nat) (x : Int) : v.reads c x =
    ((compareScaled v.low (v.exponent - 2) c x == .lt ||
        (v.mantissa % 2 == 0 && compareScaled v.low (v.exponent - 2) c x == .eq)) &&
      (compareScaled (4 * v.mantissa + 2) (v.exponent - 2) c x == .gt ||
        (v.mantissa % 2 == 0 &&
          compareScaled (4 * v.mantissa + 2) (v.exponent - 2) c x == .eq))) := rfl

variable {v} {c : Nat} {x : Int}

theorem le_of_reads (h : v.reads c x = true) :
    (v.low * 2 ^ (v.exponent - 2) : ℚ) ≤ c * 10 ^ x ∧
      (c * 10 ^ x : ℚ) ≤ (4 * v.mantissa + 2 : Nat) * 2 ^ (v.exponent - 2) := by
  simp only [reads_eq, Bool.and_eq_true, Bool.or_eq_true, beq_iff_eq, compareScaled_lt,
    compareScaled_gt, compareScaled_same] at h
  obtain ⟨hlow | ⟨-, hlow⟩, hhigh | ⟨-, hhigh⟩⟩ := h
  · exact ⟨hlow.le, hhigh.le⟩
  · exact ⟨hlow.le, hhigh.ge⟩
  · exact ⟨hlow.le, hhigh.le⟩
  · exact ⟨hlow.le, hhigh.ge⟩

theorem reads_of_lt (hl : (v.low * 2 ^ (v.exponent - 2) : ℚ) < c * 10 ^ x)
    (hh : (c * 10 ^ x : ℚ) < (4 * v.mantissa + 2 : Nat) * 2 ^ (v.exponent - 2)) :
    v.reads c x = true := by
  simp only [reads_eq, Bool.and_eq_true, Bool.or_eq_true, beq_iff_eq, compareScaled_lt,
    compareScaled_gt]
  exact ⟨Or.inl hl, Or.inl hh⟩

variable (v x) in
def below : Nat := v.mantissa * (scaleParts v.exponent (-x)).1 / (scaleParts v.exponent (-x)).2

variable (v x) in
theorem below_bounds : (v.below x * 10 ^ x : ℚ) ≤ v.value ∧
    v.value < (v.below x + 1) * 10 ^ x := by
  have hd : (0 : ℚ) < (scaleParts v.exponent (-x)).2 := by
    exact_mod_cast scaleParts_pos v.exponent (-x)
  have hm : (v.mantissa * (scaleParts v.exponent (-x)).1 : ℚ) * 10 ^ x =
      v.value * (scaleParts v.exponent (-x)).2 := by
    have hone : (10 : ℚ) ^ (-x) * 10 ^ x = 1 := by
      rw [← zpow_add₀ (by norm_num), Int.add_left_neg, zpow_zero]
    calc (v.mantissa * (scaleParts v.exponent (-x)).1 : ℚ) * 10 ^ x
        = v.value * (scaleParts v.exponent (-x)).2 * (10 ^ (-x) * 10 ^ x) := by
          rw [scaleParts_eq, value]
          ring
      _ = v.value * (scaleParts v.exponent (-x)).2 := by rw [hone, mul_one]
  have hpow : (0 : ℚ) < 10 ^ x := by positivity
  have hlo : (v.below x * (scaleParts v.exponent (-x)).2 : ℚ) ≤
      v.mantissa * (scaleParts v.exponent (-x)).1 := by
    exact_mod_cast Nat.div_mul_le_self _ _
  have hhi : (v.mantissa * (scaleParts v.exponent (-x)).1 : ℚ) <
      (v.below x + 1) * (scaleParts v.exponent (-x)).2 := by
    exact_mod_cast Nat.lt_mul_of_div_lt (Nat.lt_succ_self (v.below x)) (scaleParts_pos _ _)
  constructor
  · refine le_of_mul_le_mul_right ?_ hd
    rw [← hm, mul_right_comm]
    exact mul_le_mul_of_nonneg_right hlo hpow.le
  · refine lt_of_mul_lt_mul_right ?_ hd.le
    rw [← hm, mul_right_comm ((v.below x : ℚ) + 1)]
    exact mul_lt_mul_of_pos_right hhi hpow

variable (v x) in
theorem onGrid?_cases :
    (v.onGrid? x = none ∧ v.reads (v.below x) x = false ∧ v.reads (v.below x + 1) x = false) ∨
      ∃ c, v.onGrid? x = some c ∧ v.reads c x = true ∧ c ≤ v.below x + 1 := by
  have hx {up down : Nat} (hs : scaleParts v.exponent (-x) = (up, down)) :
      v.mantissa * up / down = v.below x := by
    rw [below, hs]
  fun_cases onGrid? v x with
  | case1 up down hs below _ hafter hbelow _ =>
    exact Or.inr ⟨_, rfl, hbelow, (hx hs).le.trans (Nat.le_succ _)⟩
  | case2 up down hs below _ hafter hbelow _ =>
    exact Or.inr ⟨_, rfl, hafter, Nat.succ_le_succ (hx hs).le⟩
  | case3 up down hs below hafter hbelow =>
    exact Or.inr ⟨_, rfl, hbelow, (hx hs).le.trans (Nat.le_succ _)⟩
  | case4 up down hs below hafter hbelow =>
    exact Or.inr ⟨_, rfl, hafter, Nat.succ_le_succ (hx hs).le⟩
  | case5 up down hs below hafter hbelow =>
    rw [← hx hs]
    exact Or.inl ⟨rfl, hbelow, hafter⟩

theorem onGrid?_some (h : v.onGrid? x = some c) : v.reads c x = true ∧ c ≤ v.below x + 1 := by
  obtain ⟨hn, -⟩ | ⟨c', hc, hreads⟩ := onGrid?_cases v x
  · exact absurd (hn.symm.trans h) nofun
  · cases hc.symm.trans h
    exact hreads

theorem onGrid?_none (h : v.onGrid? x = none) :
    v.reads (v.below x) x = false ∧ v.reads (v.below x + 1) x = false := by
  obtain ⟨-, hreads⟩ | ⟨c', hc, -⟩ := onGrid?_cases v x
  · exact hreads
  · exact absurd (hc.symm.trans h) nofun

theorem value_eq (v : Magnitude) : v.value = (4 * v.mantissa : Nat) * 2 ^ (v.exponent - 2) := by
  rw [value, zpow_sub₀ (by norm_num)]
  push_cast
  ring

theorem low_lt (hm : 0 < v.mantissa) : v.low < 4 * v.mantissa := by
  rw [low]
  split <;> omega

theorem low_pos (hm : 0 < v.mantissa) : 0 < v.low := by
  rw [low]
  split <;> omega

/-- A grid that is finer than the interval is hit by one of the two neighbours of the value. -/
theorem onGrid?_fine (hm : 0 < v.mantissa)
    (h : (10 : ℚ) ^ x < ((4 * v.mantissa + 2 : Nat) - v.low) * 2 ^ (v.exponent - 2)) :
    v.onGrid? x ≠ none := by
  intro hn
  obtain ⟨hb, ha⟩ := onGrid?_none hn
  obtain ⟨hle, hlt⟩ := v.below_bounds x
  have hu : (0 : ℚ) < 2 ^ (v.exponent - 2) := by positivity
  have hlow : (v.low * 2 ^ (v.exponent - 2) : ℚ) < v.value := by
    rw [v.value_eq]
    exact mul_lt_mul_of_pos_right (by exact_mod_cast low_lt hm) hu
  have hhigh : v.value < (4 * v.mantissa + 2 : Nat) * 2 ^ (v.exponent - 2) := by
    rw [v.value_eq]
    exact mul_lt_mul_of_pos_right (by exact_mod_cast Nat.lt_add_of_pos_right (by decide)) hu
  have hbelow : (v.below x * 10 ^ x : ℚ) ≤ v.low * 2 ^ (v.exponent - 2) := by
    by_contra hc
    exact Bool.false_ne_true (hb.symm.trans (reads_of_lt (not_le.mp hc) (hle.trans_lt hhigh)))
  have habove : ((4 * v.mantissa + 2 : Nat) * 2 ^ (v.exponent - 2) : ℚ) ≤
      (v.below x + 1) * 10 ^ x := by
    by_contra hc
    refine Bool.false_ne_true (ha.symm.trans (reads_of_lt ?_ ?_))
    · exact_mod_cast hlow.trans hlt
    · exact_mod_cast not_le.mp hc
  linarith

theorem search_hit (n : Nat) (x : Int) (hn : 0 < n) (h : v.onGrid? (x - (n - 1 : Nat)) ≠ none) :
    ∃ c y, v.search n x = (c, y) ∧ v.onGrid? y = some c ∧ x - (n - 1 : Nat) ≤ y := by
  induction n generalizing x with
  | zero => omega
  | succ n ih =>
    cases hx : v.onGrid? x with
    | some c =>
      exact ⟨c, x, by rw [search, hx], hx, by omega⟩
    | none =>
      rcases Nat.eq_zero_or_pos n with rfl | hpos
      · simp [hx] at h
      · have he : x - 1 - (n - 1 : Nat) = x - (n + 1 - 1 : Nat) := by omega
        obtain ⟨c, y, hs, hy, hle⟩ := ih (x - 1) hpos (he ▸ h)
        exact ⟨c, y, by rw [search, hx]; exact hs, hy, he ▸ hle⟩

theorem digitsBefore_bounds (fuel : Nat) (k : Int) (hlo : (10 : ℚ) ^ (k - 1) ≤ v.value)
    (hhi : v.value < 10 ^ (k + fuel)) :
    (10 : ℚ) ^ (v.digitsBefore fuel k - 1) ≤ v.value ∧
      v.value < 10 ^ v.digitsBefore fuel k := by
  induction fuel generalizing k with
  | zero =>
    rw [digitsBefore]
    exact ⟨hlo, by simpa using hhi⟩
  | succ fuel ih =>
    rw [digitsBefore]
    split
    · next h =>
      have hlt := compareScaled_lt.mp (beq_iff_eq.mp h)
      rw [Nat.cast_one, one_mul] at hlt
      exact ⟨hlo, hlt⟩
    · next h =>
      have hle : ¬v.value < 10 ^ k := by
        intro hlt
        refine h (beq_iff_eq.mpr (compareScaled_lt.mpr ?_))
        rw [Nat.cast_one, one_mul]
        exact hlt
      apply ih
      · rw [Int.add_sub_cancel]
        exact not_lt.mp hle
      · rw [Int.add_assoc, Int.add_comm 1]
        exact_mod_cast hhi

end Magnitude

theorem stripZeros_spec (fuel : Nat) (c : Nat) (x : Int) :
    ((stripZeros fuel (c, x)).1 * 10 ^ (stripZeros fuel (c, x)).2 : ℚ) = c * 10 ^ x ∧
      (stripZeros fuel (c, x)).1 ≤ c ∧ (0 < c → 0 < (stripZeros fuel (c, x)).1) := by
  induction fuel generalizing c x with
  | zero => exact ⟨rfl, Nat.le_refl c, id⟩
  | succ fuel ih =>
    rw [stripZeros]
    split
    · next h =>
      obtain ⟨hv, hle, hpos⟩ := ih (c / 10) (x + 1)
      refine ⟨hv.trans ?_, hle.trans (Nat.div_le_self c 10), fun _ => hpos (by omega)⟩
      have hc : (c : ℚ) = (c / 10 : Nat) * 10 := by
        exact_mod_cast (Nat.div_mul_cancel (Nat.dvd_of_mod_eq_zero h.2)).symm
      rw [zpow_add₀ (by norm_num), zpow_one, hc]
      ring
    · exact ⟨rfl, Nat.le_refl c, id⟩

/-- The estimate of a decimal exponent from a binary one, for the exponents of all doubles. -/
theorem estimate_bounds {e : Int} (hlo : -1074 ≤ e) (hhi : e ≤ 1023) :
    (10 : ℚ) ^ (e * 30103 / 100000 - 2) ≤ 2 ^ e ∧
      (2 : ℚ) ^ (e + 1) < 10 ^ (e * 30103 / 100000 + 4) := by
  have h : ∀ n : Nat, n < 2098 →
      compareScaled 1 ((n : Int) - 1074) 1 (((n : Int) - 1074) * 30103 / 100000 - 2) ≠ .lt ∧
      compareScaled 1 ((n : Int) - 1074 + 1) 1 (((n : Int) - 1074) * 30103 / 100000 + 4) = .lt := by
    decide +kernel
  obtain ⟨n, rfl⟩ : ∃ n : Nat, e = n - 1074 := ⟨(e + 1074).toNat, by omega⟩
  obtain ⟨hl, hu⟩ := h n (by omega)
  rw [ne_eq, compareScaled_lt, not_lt, Nat.cast_one, one_mul, one_mul] at hl
  rw [compareScaled_lt, Nat.cast_one, one_mul, one_mul] at hu
  exact ⟨hl, hu⟩

namespace Magnitude

structure IsDouble (v : Magnitude) : Prop where
  pos : 0 < v.mantissa
  lt : v.mantissa < 2 ^ 53
  lower : -1074 ≤ v.exponent
  upper : v.exponent ≤ 971

variable {v : Magnitude}

theorem IsDouble.digits (h : v.IsDouble) :
    (10 : ℚ) ^ (v.digitsBefore 5 v.exponentBelow - 1) ≤ v.value ∧
      v.value < 10 ^ v.digitsBefore 5 v.exponentBelow := by
  have hl : v.mantissa.log2 < 53 := (Nat.log2_lt h.pos.ne').mpr h.lt
  have hlo := h.lower
  have hhi := h.upper
  obtain ⟨hdown, hup⟩ := estimate_bounds (e := v.exponent + v.mantissa.log2) (by omega) (by omega)
  have hsplit (n : Nat) : (2 : ℚ) ^ (v.exponent + (n : Int)) = 2 ^ n * 2 ^ v.exponent := by
    rw [zpow_add₀ (by norm_num), zpow_natCast, mul_comm]
  have hvlo : (2 : ℚ) ^ (v.exponent + v.mantissa.log2) ≤ v.value := by
    rw [hsplit, value]
    refine mul_le_mul_of_nonneg_right ?_ (by positivity)
    exact_mod_cast Nat.log2_self_le h.pos.ne'
  have hvhi : v.value < 2 ^ (v.exponent + v.mantissa.log2 + 1) := by
    have hn : v.exponent + v.mantissa.log2 + 1 = v.exponent + (v.mantissa.log2 + 1 : Nat) := by
      omega
    rw [hn, hsplit, value]
    refine mul_lt_mul_of_pos_right ?_ (by positivity)
    exact_mod_cast Nat.lt_log2_self
  apply digitsBefore_bounds
  · rw [exponentBelow, Int.sub_sub]
    exact hdown.trans hvlo
  · refine (hvhi.trans hup).trans_le (zpow_le_zpow_right₀ (by norm_num) ?_)
    rw [exponentBelow]
    omega

/-- Seventeen digits make a grid that is finer than the interval. -/
theorem IsDouble.hit (h : v.IsDouble) :
    v.onGrid? (v.digitsBefore 5 v.exponentBelow - 1 - 16) ≠ none := by
  obtain ⟨hlo, -⟩ := h.digits
  have hpos := h.pos
  apply onGrid?_fine hpos
  have hu : (0 : ℚ) < 2 ^ v.exponent := by positivity
  have hm : (v.mantissa : ℚ) < 2 ^ 53 := by exact_mod_cast h.lt
  have hq : (2 : ℚ) ^ (v.exponent - 2) = 2 ^ v.exponent / 4 := by
    rw [zpow_sub₀ (by norm_num)]
    norm_num
  have hx : (10 : ℚ) ^ (v.digitsBefore 5 v.exponentBelow - 1 - 16) ≤ v.value / 10 ^ 16 := by
    rw [zpow_sub₀ (by norm_num)]
    exact div_le_div_of_nonneg_right hlo (by positivity)
  refine hx.trans_lt ?_
  have hc (j : Nat) (hj : j ≤ 4 * v.mantissa) :
      ((4 * v.mantissa - j : Nat) : ℚ) = 4 * v.mantissa - j := by
    rw [Nat.cast_sub hj, Nat.cast_mul]
    rfl
  rw [hq, value, low]
  split
  · next hn =>
    have hl : v.mantissa = 2 ^ 52 := hn.1
    rw [hc 1 (by omega), hl]
    push_cast
    nlinarith
  · rw [hc 2 (by omega)]
    push_cast
    nlinarith

/-- The shortest digits stand for a number of the interval, and there are few enough of them. -/
theorem IsDouble.shortest (h : v.IsDouble) :
    0 < v.shortest.1 ∧ v.shortest.1 ≤ 10 ^ 17 ∧
      (v.low * 2 ^ (v.exponent - 2) : ℚ) ≤ v.shortest.1 * 10 ^ v.shortest.2 ∧
      (v.shortest.1 * 10 ^ v.shortest.2 : ℚ) ≤
        (4 * v.mantissa + 2 : Nat) * 2 ^ (v.exponent - 2) := by
  obtain ⟨-, hhi⟩ := h.digits
  obtain ⟨c, y, hs, hy, hle⟩ := search_hit 17 (v.digitsBefore 5 v.exponentBelow - 1) (by decide)
    h.hit
  obtain ⟨hreads, hbelow⟩ := onGrid?_some hy
  obtain ⟨hlow, hhigh⟩ := le_of_reads hreads
  have hsize : v.below y < 10 ^ 17 := by
    have hlt : (v.below y * 10 ^ y : ℚ) < 10 ^ 17 * 10 ^ y := by
      refine ((v.below_bounds y).1.trans_lt hhi).trans_le ?_
      rw [← zpow_natCast, ← zpow_add₀ (by norm_num)]
      exact zpow_le_zpow_right₀ (by norm_num) (by push_cast at hle ⊢; omega)
    exact_mod_cast lt_of_mul_lt_mul_right hlt (by positivity)
  have hc : 0 < c := by
    rcases Nat.eq_zero_or_pos c with rfl | hpos
    · have hl : (0 : ℚ) < v.low * 2 ^ (v.exponent - 2) := by
        have := low_pos h.pos
        positivity
      rw [Nat.cast_zero, zero_mul] at hlow
      exact absurd hlow (not_le.mpr hl)
    · exact hpos
  obtain ⟨hv, hle', hpos⟩ := stripZeros_spec 20 c y
  rw [Magnitude.shortest, hs]
  exact ⟨hpos hc, by omega, hlow.trans_eq hv.symm, hv.trans_le hhigh⟩

theorem IsDouble.exponent_lower (h : v.IsDouble) : -400 ≤ v.shortest.2 := by
  obtain ⟨-, hsize, hlow, -⟩ := h.shortest
  have hpow (b : ℚ) (hb : 0 < b) (n : Int) : 0 ≤ b ^ n := (zpow_pos hb n).le
  have hlower := h.lower
  by_contra hx
  have hsmall : ((1 : Nat) : ℚ) * 10 ^ (-383 : Int) < (1 : Nat) * 2 ^ (-1076 : Int) :=
    compareScaled_gt.mp (by decide +kernel)
  rw [Nat.cast_one, one_mul, one_mul] at hsmall
  refine absurd (hsmall.trans_le (le_trans ?_ hlow)) (not_lt.mpr ?_)
  · calc (2 : ℚ) ^ (-1076 : Int)
        ≤ 2 ^ (v.exponent - 2) :=
          zpow_le_zpow_right₀ (by norm_num) (show (-1076 : Int) ≤ v.exponent - 2 by omega)
      _ ≤ v.low * 2 ^ (v.exponent - 2) :=
          le_mul_of_one_le_left (hpow 2 (by norm_num) _) (by exact_mod_cast low_pos h.pos)
  · calc (v.shortest.1 : ℚ) * 10 ^ v.shortest.2
        ≤ 10 ^ (17 : Int) * 10 ^ (-400 : Int) :=
          mul_le_mul (by exact_mod_cast hsize)
            (zpow_le_zpow_right₀ (by norm_num) (show v.shortest.2 ≤ -400 by omega))
            (hpow 10 (by norm_num) _) (hpow 10 (by norm_num) _)
      _ = 10 ^ (-383 : Int) := (zpow_add₀ (by norm_num) 17 (-400)).symm

theorem IsDouble.exponent_upper (h : v.IsDouble) : v.shortest.2 ≤ 308 := by
  obtain ⟨hpos, -, -, hhigh⟩ := h.shortest
  have hpow (b : ℚ) (hb : 0 < b) (n : Int) : 0 ≤ b ^ n := (zpow_pos hb n).le
  have hlt := h.lt
  have hupper := h.upper
  by_contra hx
  have hbig : ((1 : Nat) : ℚ) * 2 ^ (1024 : Int) < (1 : Nat) * 10 ^ (309 : Int) :=
    compareScaled_lt.mp (by decide +kernel)
  rw [Nat.cast_one, one_mul, one_mul] at hbig
  have hm : 4 * v.mantissa + 2 ≤ 2 ^ 55 := by omega
  refine absurd (hbig.trans_le (le_trans ?_ hhigh)) (not_lt.mpr ?_)
  · calc (10 : ℚ) ^ (309 : Int)
        ≤ 10 ^ v.shortest.2 :=
          zpow_le_zpow_right₀ (by norm_num) (show (309 : Int) ≤ v.shortest.2 by omega)
      _ ≤ v.shortest.1 * 10 ^ v.shortest.2 :=
          le_mul_of_one_le_left (hpow 10 (by norm_num) _) (by exact_mod_cast hpos)
  · calc ((4 * v.mantissa + 2 : Nat) : ℚ) * 2 ^ (v.exponent - 2)
        ≤ 2 ^ (55 : Int) * 2 ^ (969 : Int) :=
          mul_le_mul (by exact_mod_cast hm)
            (zpow_le_zpow_right₀ (by norm_num) (show v.exponent - 2 ≤ 969 by omega))
            (hpow 2 (by norm_num) _) (hpow 2 (by norm_num) _)
      _ = 2 ^ (1024 : Int) := (zpow_add₀ (by norm_num) 55 969).symm

end Magnitude

end TaskRelay.Decimal
