import Mathlib.Data.Nat.Cast.Order.Field
import Mathlib.Tactic.FieldSimp
import ReactiveQuery.Proofs.Double.Decimal

/-! Shortest decimals.  A decimal that lies between the midpoints of a magnitude rounds to it, and of
the two neighbours on a grid of seventeen digits one always does.  So the decimal that is written for
a magnitude rounds to it. -/

namespace ReactiveQuery

open Magnitude (unitsPerOne unitsOfWord topWord stride spacing)

namespace Decimal

variable (d : Decimal) (n : Nat)

theorem le_units : n * d.ratio.2 ≤ 2 * d.ratio.1 * unitsPerOne ↔
    (n : ℚ) ≤ 2 * (d.value * unitsPerOne) := by
  have pos : (0 : ℚ) < d.ratio.2 := by exact_mod_cast d.ratio_pos
  rw [value_mul_unitsPerOne, ← mul_div_assoc, le_div_iff₀ pos, Nat.mul_assoc]
  exact_mod_cast Iff.rfl

theorem units_le : 2 * d.ratio.1 * unitsPerOne ≤ n * d.ratio.2 ↔
    2 * (d.value * unitsPerOne) ≤ (n : ℚ) := by
  have pos : (0 : ℚ) < d.ratio.2 := by exact_mod_cast d.ratio_pos
  rw [value_mul_unitsPerOne, ← mul_div_assoc, div_le_iff₀ pos, Nat.mul_assoc]
  exact_mod_cast Iff.rfl

end Decimal

namespace Magnitude

variable {m : Magnitude} {d : Decimal}

theorem between_of_readsBack (reads : m.readsBack d = true) :
    Between m.word (d.ratio.1 * unitsPerOne) d.ratio.2 := by
  unfold readsBack units at reads
  dsimp only at reads
  refine ⟨?_, .inr ?_, fun middle => ?_⟩ <;> rw [← Nat.mul_assoc] at * <;> split at reads <;>
    simp only [Bool.and_eq_true, decide_eq_true_eq, beq_iff_eq] at * <;> omega

/-- What reads back rounds back. -/
theorem nearest_of_readsBack (reads : m.readsBack d = true) : d.nearest = m :=
  d.nearest_value.unique
    ((between_of_readsBack reads).nearest d.ratio_pos d.value_mul_unitsPerOne)

/-- A decimal that does not read back and does not exceed the magnitude is at most at its lower
midpoint. -/
theorem le_midpoint_of_below (fails : m.readsBack d = false)
    (below : d.value * unitsPerOne ≤ m.units) :
    2 * (d.value * unitsPerOne) ≤ unitsOfWord (m.word - 1) + m.units := by
  have step : m.units < unitsOfWord (m.word + 1) := unitsOfWord_strictMono (Nat.lt_succ_self _)
  have inside : 2 * d.ratio.1 * unitsPerOne < (m.units + unitsOfWord (m.word + 1)) * d.ratio.2 := by
    rw [← Nat.not_le, d.le_units]
    push_cast
    have step : (m.units : ℚ) < unitsOfWord (m.word + 1) := by exact_mod_cast step
    linarith
  have low : 2 * d.ratio.1 * unitsPerOne ≤ (unitsOfWord (m.word - 1) + m.units) * d.ratio.2 := by
    unfold readsBack at fails
    dsimp only at fails
    split at fails <;>
      simp only [Bool.and_eq_false_iff, decide_eq_false_iff_not] at fails <;> omega
  have := (d.units_le _).mp low
  rwa [Nat.cast_add] at this

/-- A decimal that does not read back and exceeds the magnitude is at least at its upper midpoint. -/
theorem midpoint_le_of_above (positive : m.word ≠ 0) (fails : m.readsBack d = false)
    (above : m.units < d.value * unitsPerOne) :
    (m.units + unitsOfWord (m.word + 1) : ℚ) ≤ 2 * (d.value * unitsPerOne) := by
  have step : unitsOfWord (m.word - 1) < m.units :=
    unitsOfWord_strictMono (Nat.sub_one_lt positive)
  have inside : (unitsOfWord (m.word - 1) + m.units) * d.ratio.2 < 2 * d.ratio.1 * unitsPerOne := by
    rw [← Nat.not_le, d.units_le]
    push_cast
    have step : (unitsOfWord (m.word - 1) : ℚ) < m.units := by exact_mod_cast step
    linarith
  have high : (m.units + unitsOfWord (m.word + 1)) * d.ratio.2 ≤ 2 * d.ratio.1 * unitsPerOne := by
    unfold readsBack at fails
    dsimp only at fails
    split at fails <;>
      simp only [Bool.and_eq_false_iff, decide_eq_false_iff_not] at fails <;> omega
  have := (d.le_units _).mp high
  rwa [Nat.cast_add] at this

/-- The neighbours of a magnitude on a grid lie on its two sides, one step of the grid apart. -/
theorem neighbours_sides (m : Magnitude) (grid : Int) :
    (m.neighbours grid).1.value * unitsPerOne ≤ m.units ∧
      m.units < (m.neighbours grid).2.value * unitsPerOne ∧
      (m.neighbours grid).2.value = (m.neighbours grid).1.value + 10 ^ grid := by
  have units : (0 : ℚ) < unitsPerOne := by exact_mod_cast unitsPerOne_pos
  have cell : (0 : ℚ) < 10 ^ grid := by positivity
  have sides : ∀ p q : Nat, 0 < q → (m.units : ℚ) = p / q * 10 ^ grid * unitsPerOne →
      (p / q : Nat) * (10 : ℚ) ^ grid * unitsPerOne ≤ m.units ∧
        m.units < (p / q + 1 : Nat) * (10 : ℚ) ^ grid * unitsPerOne := by
    intro p q pos same
    have pos' : (0 : ℚ) < q := by exact_mod_cast pos
    have below : ((p / q : Nat) : ℚ) ≤ p / q := Nat.cast_div_le
    have above : (p / q : ℚ) < (p / q + 1 : Nat) := by
      rw [div_lt_iff₀ pos', mul_comm]
      exact_mod_cast Nat.lt_mul_div_succ p pos
    rw [same]
    exact ⟨mul_le_mul_of_nonneg_right (mul_le_mul_of_nonneg_right below cell.le) units.le,
      mul_lt_mul_of_pos_right (mul_lt_mul_of_pos_right above cell) units⟩
  have step : ∀ n : Nat, ((n + 1 : Nat) : ℚ) * 10 ^ grid = n * 10 ^ grid + 10 ^ grid := fun n => by
    rw [Nat.cast_succ, add_one_mul]
  unfold neighbours Decimal.value
  rcases grid with e | e
  · obtain ⟨below, above⟩ := sides m.units (unitsPerOne * Nat.pow 10 e)
      (Nat.mul_pos unitsPerOne_pos (Nat.pow_pos (by decide))) (by
        rw [Int.ofNat_eq_natCast, zpow_natCast, Nat.pow_eq]
        push_cast
        field_simp)
    exact ⟨below, above, step _⟩
  · obtain ⟨below, above⟩ := sides (m.units * Nat.pow 10 (e + 1)) unitsPerOne unitsPerOne_pos (by
        rw [zpow_negSucc, Nat.pow_eq]
        push_cast
        field_simp)
    exact ⟨below, above, step _⟩

/-- The magnitude is at most `2 ^ 52` times as large as the distance of its two neighbours. -/
theorem units_le_spacing (positive : m.word ≠ 0) :
    m.units + stride * unitsOfWord (m.word - 1) ≤ stride * unitsOfWord (m.word + 1) := by
  obtain ⟨w, here⟩ := Nat.exists_eq_succ_of_ne_zero positive
  have bound := unitsOfWord_succ_le w
  have less := spacing_mono (Nat.le_add_right w 1)
  have wider := Nat.mul_le_mul_left stride less
  rw [Nat.mul_assoc] at bound
  rw [units, here, Nat.succ_sub_one, Nat.succ_eq_add_one, unitsOfWord_succ (w + 1)]
  simp only [unitsOfWord_succ w, Nat.mul_add] at *
  omega

theorem pow_pred_length_toDigits_le {n : Nat} (positive : n ≠ 0) :
    10 ^ ((Nat.toDigits 10 n).length - 1) ≤ n := by
  rcases Nat.eq_zero_or_pos ((Nat.toDigits 10 n).length - 1) with one | more
  · rw [one]
    exact Nat.pos_of_ne_zero positive
  · rw [← Nat.not_lt, ← Nat.length_toDigits_le_iff (by decide) more]
    omega

/-- The first digit of a magnitude stands where it is said to. -/
theorem pow_decimalPoint_le (positive : m.word ≠ 0) :
    (10 : ℚ) ^ (m.decimalPoint - 1) * unitsPerOne ≤ m.units := by
  have least : 0 < m.units := unitsOfWord_strictMono (Nat.pos_of_ne_zero positive)
  have scaled : ∀ k : Nat, 0 < m.units * Nat.pow 10 k / unitsPerOne →
      (10 : ℚ) ^ ((Nat.toDigits 10 (m.units * Nat.pow 10 k / unitsPerOne)).length - (k : Int) - 1) *
        unitsPerOne ≤ m.units := by
    intro k some
    have digits := pow_pred_length_toDigits_le some.ne'
    have pos := Nat.length_toDigits_pos (b := 10) (n := m.units * Nat.pow 10 k / unitsPerOne)
    rw [Nat.le_div_iff_mul_le unitsPerOne_pos] at digits
    have digits : (10 : ℚ) ^ ((Nat.toDigits 10 (m.units * Nat.pow 10 k / unitsPerOne)).length - 1) *
        unitsPerOne ≤ m.units * 10 ^ k := by exact_mod_cast digits
    generalize (Nat.toDigits 10 (m.units * Nat.pow 10 k / unitsPerOne)).length = length at *
    rw [show (length : Int) - k - 1 = (length - 1 : Nat) - (k : Int) by omega,
      zpow_sub₀ (by norm_num), zpow_natCast, zpow_natCast, div_mul_eq_mul_div,
      div_le_iff₀ (by positivity)]
    exact digits
  have deep : ∀ k : Nat, 330 ≤ k →
      (10 : ℚ) ^ ((Nat.toDigits 10 (m.units * Nat.pow 10 k / unitsPerOne)).length - (k : Int) - 1) *
        unitsPerOne ≤ m.units := by
    intro k large
    refine scaled k (Nat.div_pos ?_ unitsPerOne_pos)
    have := two_mul_unitsPerOne_le large
    exact Nat.le_trans (Nat.le_trans (Nat.le_mul_of_pos_left _ two_pos) this)
      (Nat.le_mul_of_pos_left _ least)
  unfold decimalPoint
  split_ifs with whole
  · simpa [floor] using scaled 0 (by simpa [floor] using whole)
  · have large : 330 ≤ 400 := by decide
    rw [show (400 : Int) = (400 : Nat) from rfl]
    generalize 400 = k at *
    exact deep k large

/-- On a grid of seventeen digits a neighbour reads back. -/
theorem isSome_onGrid? (positive : m.word ≠ 0) :
    (m.onGrid? (m.decimalPoint - 17)).isSome = true := by
  obtain ⟨below, above, step⟩ := m.neighbours_sides (m.decimalPoint - 17)
  have wide : (m.units + stride * unitsOfWord (m.word - 1) : ℚ) ≤
      stride * unitsOfWord (m.word + 1) := by exact_mod_cast units_le_spacing positive
  have point := pow_decimalPoint_le positive
  rw [show m.decimalPoint - 1 = m.decimalPoint - 17 + 16 by ring, zpow_add₀ (by norm_num)] at point
  unfold onGrid?
  dsimp only
  generalize (m.neighbours (m.decimalPoint - 17)).1 = low at *
  generalize (m.neighbours (m.decimalPoint - 17)).2 = high at *
  split
  · rfl
  · rfl
  · rfl
  · next lowFails highFails =>
    have first := le_midpoint_of_below lowFails below
    have second := midpoint_le_of_above positive highFails above
    rw [step] at second
    norm_num [stride] at wide point
    have units : (0 : ℚ) < 10 ^ (m.decimalPoint - 17) * unitsPerOne :=
      mul_pos (by positivity) (by exact_mod_cast unitsPerOne_pos)
    linarith

theorem readsBack_of_onGrid? {grid : Int} (found : m.onGrid? grid = some d) :
    m.readsBack d = true := by
  unfold onGrid? at found
  dsimp only at found
  split at found
  · split at found <;> cases found <;> assumption
  · cases found
    assumption
  · cases found
    assumption
  · cases found

/-- What is written for a magnitude reads back. -/
theorem readsBack_shortest (positive : m.word ≠ 0) : m.readsBack m.shortest = true := by
  unfold shortest
  dsimp only
  cases found : ((List.range 17).map fun n : Nat => m.decimalPoint - (n + 1)).findSome? m.onGrid? with
  | none =>
    have last := List.findSome?_eq_none_iff.mp found (m.decimalPoint - 17)
      (List.mem_map.mpr ⟨16, by decide, by norm_num⟩)
    have some := isSome_onGrid? positive
    rw [last] at some
    cases some
  | some d =>
    obtain ⟨grid, -, here⟩ := List.exists_of_findSome?_eq_some found
    exact readsBack_of_onGrid? here

/-- The decimal that is written for a magnitude rounds to it. -/
theorem nearest_shortest (positive : m.word ≠ 0) : m.shortest.nearest = m :=
  nearest_of_readsBack (readsBack_shortest positive)

theorem coefficient_shortest (positive : m.word ≠ 0) : m.shortest.coefficient ≠ 0 := by
  intro zero
  have back := nearest_shortest positive
  rw [Decimal.nearest, if_pos zero] at back
  exact positive (congrArg word back.symm)

end Magnitude

end ReactiveQuery
