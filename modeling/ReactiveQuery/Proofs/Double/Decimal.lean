import Mathlib.Tactic.NormNum
import Mathlib.Tactic.Positivity
import Mathlib.Algebra.Order.Field.Power
import ReactiveQuery.Double.Decimal
import ReactiveQuery.Proofs.Double.Nearest

/-! Rounding decimals.  What is known of the size of a decimal from the size of its coefficient only
saves work: a decimal rounds to the magnitude that is nearest to it, whatever its size. -/

namespace ReactiveQuery

open Magnitude (unitsPerOne unitsOfWord topWord)

namespace Decimal

/-- The number that a decimal denotes. -/
def value (d : Decimal) : ℚ := d.coefficient * 10 ^ d.exponent

variable (d : Decimal)

theorem ratio_pos : 0 < d.ratio.2 := by
  unfold ratio
  split
  · exact Nat.one_pos
  · exact Nat.pow_pos (by decide)

theorem value_eq_ratio : d.value = d.ratio.1 / d.ratio.2 := by
  unfold value ratio
  rcases d.exponent with e | e
  · simp
  · simp [zpow_negSucc, div_eq_mul_inv]

/-- A decimal in units. -/
theorem value_mul_unitsPerOne :
    d.value * unitsPerOne = ((d.ratio.1 * unitsPerOne : Nat) : ℚ) / d.ratio.2 := by
  rw [value_eq_ratio, Nat.cast_mul, div_mul_eq_mul_div]

variable {d}

/-- A coefficient that reaches a power of ten, and the decimal with it. -/
theorem pow_le_value {k : Nat} (reached : 10 ^ k ≤ d.coefficient) :
    (10 : ℚ) ^ (d.exponent + k) ≤ d.value := by
  rw [Int.add_comm, zpow_add₀ (by norm_num), zpow_natCast, value]
  exact mul_le_mul_of_nonneg_right (by exact_mod_cast reached) (by positivity)

theorem value_lt_pow {k : Nat} (below : d.coefficient < 10 ^ k) :
    d.value < (10 : ℚ) ^ (d.exponent + k) := by
  rw [Int.add_comm, zpow_add₀ (by norm_num), zpow_natCast, value]
  exact mul_lt_mul_of_pos_right (by exact_mod_cast below) (by positivity)

theorem lowerPower_le (positive : d.coefficient ≠ 0) : (10 : ℚ) ^ d.lowerPower ≤ d.value := by
  refine pow_le_value (Nat.le_trans ?_ (Nat.log2_self_le positive))
  refine (Nat.pow_le_pow_iff_left (n := 10) (by decide)).mp ?_
  calc (10 ^ (3 * d.coefficient.log2 / 10)) ^ 10
      = 10 ^ (3 * d.coefficient.log2 / 10 * 10) := (Nat.pow_mul ..).symm
    _ ≤ 10 ^ (3 * d.coefficient.log2) := Nat.pow_le_pow_right (by decide) (by omega)
    _ = (10 ^ 3) ^ d.coefficient.log2 := Nat.pow_mul ..
    _ ≤ (2 ^ 10) ^ d.coefficient.log2 := Nat.pow_le_pow_left (by decide) _
    _ = (2 ^ d.coefficient.log2) ^ 10 := by rw [← Nat.pow_mul, ← Nat.pow_mul, Nat.mul_comm]

theorem value_lt_upperPower : d.value < (10 : ℚ) ^ d.upperPower := by
  rw [show d.upperPower = d.exponent + (d.coefficient.log2 / 3 + 1 : Nat) by
    unfold upperPower
    omega]
  refine value_lt_pow ?_
  calc d.coefficient < 2 ^ (d.coefficient.log2 + 1) := Nat.lt_log2_self
    _ ≤ 2 ^ (3 * (d.coefficient.log2 / 3 + 1)) := Nat.pow_le_pow_right (by decide) (by omega)
    _ = (2 ^ 3) ^ (d.coefficient.log2 / 3 + 1) := Nat.pow_mul ..
    _ ≤ 10 ^ (d.coefficient.log2 / 3 + 1) := Nat.pow_le_pow_left (by decide) _

end Decimal

namespace Magnitude

variable {x : ℚ} {n : Nat}

theorem two_pow_le_ten_pow {m : Nat} (le : 28 * m ≤ 93 * n) : 2 ^ m ≤ 10 ^ n := by
  refine (Nat.pow_le_pow_iff_left (n := 28) (by decide)).mp ?_
  calc (2 ^ m) ^ 28 = 2 ^ (28 * m) := by rw [← Nat.pow_mul, Nat.mul_comm]
    _ ≤ 2 ^ (93 * n) := Nat.pow_le_pow_right (by decide) le
    _ = (2 ^ 93) ^ n := Nat.pow_mul ..
    _ ≤ (10 ^ 28) ^ n := Nat.pow_le_pow_left (by decide) n
    _ = (10 ^ n) ^ 28 := by rw [← Nat.pow_mul, ← Nat.pow_mul, Nat.mul_comm]

/-- Units are a power of two.  Its exponent is named, as powers of large numerals do not unfold. -/
theorem exists_unitsPerOne : ∃ m, m = 1074 ∧ unitsPerOne = 2 ^ m := by
  unfold unitsPerOne
  generalize named : 1074 = m
  exact ⟨m, rfl, Nat.one_shiftLeft m⟩

/-- Infinity stands at `2 ^ 1024`. -/
theorem exists_unitsOfWord_topWord : ∃ m, m = 1024 ∧ unitsOfWord topWord = 2 ^ m * unitsPerOne := by
  obtain ⟨k, named, units⟩ := exists_unitsPerOne
  obtain ⟨m, large⟩ : ∃ m, m = 1024 := ⟨_, rfl⟩
  have steps : topWord = (k + (m - 53)) * stride + 2 * stride := by
    rw [named, large]
    decide
  have doubled : 2 * stride = 2 ^ 53 := by decide
  refine ⟨m, large, ?_⟩
  rw [steps, unitsOfWord_steps (.inr (by decide)) (Nat.le_refl _), doubled, units, ← Nat.pow_add,
    ← Nat.pow_add, show 53 + (k + (m - 53)) = m + k by omega]

/-- The least magnitude is more than `2 * 10 ^ -330`. -/
theorem two_mul_unitsPerOne_le (large : 330 ≤ n) : 2 * unitsPerOne ≤ 10 ^ n := by
  obtain ⟨m, named, units⟩ := exists_unitsPerOne
  rw [units, ← Nat.pow_succ']
  exact two_pow_le_ten_pow (by omega)

theorem unitsOfWord_topWord_le (large : 310 ≤ n) : unitsOfWord topWord ≤ 10 ^ n * unitsPerOne := by
  obtain ⟨m, named, top⟩ := exists_unitsOfWord_topWord
  rw [top]
  exact Nat.mul_le_mul_right _ (two_pow_le_ten_pow (by omega))

theorem exists_ratio (nonneg : 0 ≤ x) :
    ∃ p q : Nat, 0 < q ∧ x * unitsPerOne = (p : ℚ) / q := by
  have units : 0 ≤ x * unitsPerOne := mul_nonneg nonneg (Nat.cast_nonneg _)
  refine ⟨(x * unitsPerOne).num.toNat, (x * unitsPerOne).den, Rat.den_pos _, ?_⟩
  have whole : (((x * unitsPerOne).num.toNat : Int) : ℚ) = (x * unitsPerOne).num := by
    rw [Int.toNat_of_nonneg (Rat.num_nonneg.mpr units)]
  rw [Int.cast_natCast] at whole
  rw [whole, Rat.num_div_den]

/-- What stays below half of the least magnitude rounds to zero. -/
theorem nearest_zero (nonneg : 0 ≤ x) (large : 330 ≤ n) (small : x * 10 ^ n ≤ 1) :
    zero.Nearest x := by
  obtain ⟨p, q, pos, same⟩ := exists_ratio nonneg
  have pos' : (0 : ℚ) < q := by exact_mod_cast pos
  have units : (2 * unitsPerOne : ℚ) ≤ 10 ^ n := by exact_mod_cast two_mul_unitsPerOne_le large
  have half : 2 * ((p : ℚ) / q) ≤ 1 :=
    calc 2 * ((p : ℚ) / q) = x * (2 * unitsPerOne) := by rw [← same]; ring
      _ ≤ x * 10 ^ n := mul_le_mul_of_nonneg_left units nonneg
      _ ≤ 1 := small
  rw [← mul_div_assoc, div_le_one pos'] at half
  have half : 2 * p ≤ q := by exact_mod_cast half
  refine Between.nearest (p := p) ⟨?_, .inr ?_, fun _ => rfl⟩ pos same
  · simp [zero, unitsOfWord, stride]
  · simpa [zero, unitsOfWord, stride] using half

/-- What reaches `2 ^ 1024` rounds to infinity. -/
theorem nearest_infinity (large : 310 ≤ n) (reaches : 10 ^ n ≤ x) : infinity.Nearest x := by
  obtain ⟨p, q, pos, same⟩ := exists_ratio (le_trans (by positivity) reaches)
  have pos' : (0 : ℚ) < q := by exact_mod_cast pos
  have units : (unitsOfWord topWord : ℚ) ≤ p / q :=
    calc (unitsOfWord topWord : ℚ) ≤ 10 ^ n * unitsPerOne := by
          exact_mod_cast unitsOfWord_topWord_le large
      _ ≤ x * unitsPerOne := mul_le_mul_of_nonneg_right reaches (Nat.cast_nonneg _)
      _ = p / q := same
  rw [le_div_iff₀ pos'] at units
  have units : unitsOfWord topWord * q ≤ p := by exact_mod_cast units
  have before : unitsOfWord (topWord - 1) * q ≤ unitsOfWord topWord * q :=
    Nat.mul_le_mul_right q (unitsOfWord_strictMono.monotone (Nat.sub_le _ 1))
  refine Between.nearest (p := p) ⟨?_, .inl rfl, fun _ => rfl⟩ pos same
  rw [Nat.add_mul, show infinity.word = topWord from rfl]
  omega

end Magnitude

namespace Decimal

variable {d : Decimal} {k : Int}

theorem zero_nearest (small : k ≤ -330) (below : d.value ≤ 10 ^ k) :
    Magnitude.zero.Nearest d.value := by
  obtain ⟨n, power⟩ := Int.eq_ofNat_of_zero_le (a := -k) (by omega)
  rw [show k = -(n : Int) by omega, zpow_neg, zpow_natCast] at below
  refine Magnitude.nearest_zero (n := n) (by unfold value; positivity) (by omega) ?_
  calc d.value * 10 ^ n ≤ (10 ^ n)⁻¹ * 10 ^ n := mul_le_mul_of_nonneg_right below (by positivity)
    _ = 1 := inv_mul_cancel₀ (by positivity)

theorem infinity_nearest (large : 310 ≤ k) (reached : 10 ^ k ≤ d.value) :
    Magnitude.infinity.Nearest d.value := by
  obtain ⟨n, power⟩ := Int.eq_ofNat_of_zero_le (a := k) (by omega)
  rw [power, zpow_natCast] at reached
  exact Magnitude.nearest_infinity (n := n) (by omega) reached

/-- A decimal rounds to what is computed. -/
theorem nearest_value (d : Decimal) : d.nearest.Nearest d.value := by
  unfold nearest
  split_ifs with none small large
  · exact Magnitude.nearest_zero (by simp [value, none]) le_rfl (by simp [value, none])
  · exact zero_nearest (by omega) d.value_lt_upperPower.le
  · exact infinity_nearest large (lowerPower_le none)
  · exact Magnitude.nearest_nearest d.ratio_pos d.value_mul_unitsPerOne

end Decimal

end ReactiveQuery
