import ReactiveQuery.Proofs.Double.Shortest

/-! Whole magnitudes.  Up to `2 ^ 53` every whole number is a magnitude, so that nothing else rounds
to one below, and what is written for it has its digits before the point. -/

namespace ReactiveQuery

namespace Magnitude

variable {m : Magnitude} {n : Nat}

/-- Whole numbers up to `2 ^ 53` are magnitudes. -/
theorem exists_value_eq (small : n ≤ 2 ^ 53) : ∃ m : Magnitude, m.value = n := by
  rcases Nat.eq_zero_or_pos n with rfl | positive
  · exact ⟨.zero, by simp [value, units, zero, unitsOfWord, stride]⟩
  obtain ⟨k, named, one⟩ := exists_unitsPerOne
  -- The number fills fifty-three binary digits once it is shifted.
  let shift := 52 - n.log2
  have reached : 2 ^ n.log2 ≤ n := Nat.log2_self_le positive.ne'
  have below : n < 2 ^ (n.log2 + 1) := Nat.lt_log2_self
  have least : stride ≤ n * 2 ^ shift := by
    calc stride = 2 ^ 52 := by decide
      _ ≤ 2 ^ (n.log2 + shift) := Nat.pow_le_pow_right (by decide) (by omega)
      _ = 2 ^ n.log2 * 2 ^ shift := Nat.pow_add ..
      _ ≤ n * 2 ^ shift := Nat.mul_le_mul_right _ reached
  have most : n * 2 ^ shift ≤ 2 * stride := by
    rw [show 2 * stride = 2 ^ 53 by decide]
    rcases Nat.lt_or_ge 52 n.log2 with large | few
    · rwa [show shift = 0 by omega, Nat.pow_zero, Nat.mul_one]
    · calc n * 2 ^ shift ≤ 2 ^ (n.log2 + 1) * 2 ^ shift := Nat.mul_le_mul_right _ below.le
        _ = 2 ^ 53 := by rw [← Nat.pow_add, show n.log2 + 1 + shift = 53 by omega]
  have inside : (k - shift) * stride + n * 2 ^ shift ≤ topWord := by
    have first : (k - shift) * stride ≤ 1074 * stride := Nat.mul_le_mul_right _ (by omega)
    have last : 1074 * stride + 2 * stride ≤ topWord := by decide
    omega
  refine ⟨⟨_, inside⟩, ?_⟩
  have whole : unitsOfWord ((k - shift) * stride + n * 2 ^ shift) = n * unitsPerOne := by
    rw [unitsOfWord_steps (.inr least) most, one, Nat.mul_assoc, ← Nat.pow_add,
      show shift + (k - shift) = k by omega]
  have pos : (unitsPerOne : ℚ) ≠ 0 := by exact_mod_cast unitsPerOne_pos.ne'
  rw [value, units, whole, Nat.cast_mul, mul_div_cancel_right₀ _ pos]

/-- Below `2 ^ 53` a whole number rounds to itself, and no other one rounds to it. -/
theorem Nearest.value_eq_iff {i : Nat} (nearest : m.Nearest (n : ℚ)) (small : i < 2 ^ 53) :
    m.value = i ↔ n = i := by
  rcases Nat.lt_or_ge (2 ^ 53) n with many | few
  · obtain ⟨e, exactly⟩ := exists_value_eq (le_refl (2 ^ 53))
    have near := nearest.near e
    have many' : ((2 ^ 53 : Nat) : ℚ) < n := by exact_mod_cast many
    have small' : (i : ℚ) < (2 ^ 53 : Nat) := by exact_mod_cast small
    rw [exactly, abs_of_pos (sub_pos.mpr many'), abs_le] at near
    constructor
    · intro whole
      rw [whole] at near
      linarith
    · omega
  · obtain ⟨e, exactly⟩ := exists_value_eq few
    have near := nearest.near e
    rw [exactly, sub_self, abs_zero, abs_nonpos_iff, sub_eq_zero] at near
    rw [← near, Nat.cast_inj]

section
variable {d : Decimal} {i : Nat}

theorem value_mul_unitsPerOne (m : Magnitude) : m.value * unitsPerOne = m.units :=
  div_mul_cancel₀ _ (by exact_mod_cast unitsPerOne_pos.ne')

theorem units_of_value (whole : m.value = i) : m.units = i * unitsPerOne := by
  have units := m.value_mul_unitsPerOne
  rw [whole] at units
  exact_mod_cast units.symm

/-- A decimal of the same value reads back. -/
theorem readsBack_of_value (positive : m.word ≠ 0) (same : d.value = m.value) :
    m.readsBack d = true := by
  have before : unitsOfWord (m.word - 1) < m.units :=
    unitsOfWord_strictMono (Nat.sub_one_lt positive)
  have after : m.units < unitsOfWord (m.word + 1) := unitsOfWord_strictMono (Nat.lt_succ_self _)
  have units : d.value * unitsPerOne = m.units := by rw [same, value_mul_unitsPerOne]
  have low : (unitsOfWord (m.word - 1) + m.units) * d.ratio.2 < 2 * d.ratio.1 * unitsPerOne := by
    rw [← Nat.not_le, d.units_le, units, Nat.cast_add]
    have before : (unitsOfWord (m.word - 1) : ℚ) < m.units := by exact_mod_cast before
    linarith
  have high : 2 * d.ratio.1 * unitsPerOne < (m.units + unitsOfWord (m.word + 1)) * d.ratio.2 := by
    rw [← Nat.not_le, d.le_units, units, Nat.cast_add]
    have after : (m.units : ℚ) < unitsOfWord (m.word + 1) := by exact_mod_cast after
    linarith
  unfold readsBack
  dsimp only
  split
  · simp [low.le, high.le]
  · simp [low, high]

theorem exponent_of_onGrid? {grid : Int} (found : m.onGrid? grid = some d) : d.exponent = grid := by
  have sides : (m.neighbours grid).1.exponent = grid ∧ (m.neighbours grid).2.exponent = grid :=
    ⟨rfl, rfl⟩
  unfold onGrid? at found
  dsimp only at found
  split at found
  · split at found <;> cases found
    · exact sides.1
    · exact sides.2
  · cases found
    exact sides.1
  · cases found
    exact sides.2
  · cases found

/-- The first grid on which a neighbour reads back is no finer than any other one. -/
theorem le_exponent_shortest {grid : Int} (listed : ∃ k < 17, grid = m.decimalPoint - (k + 1 : Nat))
    (found : (m.onGrid? grid).isSome = true) : grid ≤ m.shortest.exponent := by
  obtain ⟨k, few, rfl⟩ := listed
  have ordered :
      ((List.range 17).map fun n : Nat => m.decimalPoint - (n + 1)).Pairwise (· > ·) := by
    refine List.pairwise_map.mpr (List.pairwise_lt_range.imp fun {a b} less => ?_)
    omega
  have member : m.decimalPoint - (k + 1 : Nat) ∈
      (List.range 17).map fun n : Nat => m.decimalPoint - (n + 1) :=
    List.mem_map.mpr ⟨k, List.mem_range.mpr few, by push_cast; rfl⟩
  unfold shortest
  dsimp only
  generalize m.decimalPoint - (k + 1 : Nat) = grid at *
  cases first :
    ((List.range 17).map fun n : Nat => m.decimalPoint - (n + 1)).findSome? m.onGrid? with
  | none =>
    rw [List.findSome?_eq_none_iff.mp first grid member] at found
    cases found
  | some d =>
    obtain ⟨before, found', after, split, here, none⟩ := List.findSome?_eq_some_iff.mp first
    rw [split] at member ordered
    rw [Option.getD_some, exponent_of_onGrid? here]
    rcases List.mem_append.mp member with earlier | later
    · rw [none grid earlier] at found
      cases found
    · rcases List.mem_cons.mp later with rfl | later
      · exact le_rfl
      · exact ((List.pairwise_cons.mp (List.pairwise_append.mp ordered).2.1).1 grid later).le

/-- What is written for a whole magnitude below `2 ^ 53` has the same value, and its digits are in
front of the point. -/
theorem shortest_of_whole (whole : m.value = i) (positive : i ≠ 0) (small : i < 2 ^ 53) :
    0 ≤ m.shortest.exponent ∧ m.shortest.value = i := by
  have units := units_of_value whole
  have word : m.word ≠ 0 := by
    intro none
    rw [Magnitude.units, none] at units
    exact positive (by simpa [unitsOfWord, stride, unitsPerOne_pos.ne'] using units.symm)
  have floor : m.floor = i := by rw [Magnitude.floor, units, Nat.mul_div_cancel _ unitsPerOne_pos]
  -- The number itself lies on the grid of ones, so no finer grid is looked at.
  have unitary : (m.onGrid? 0).isSome = true := by
    have reads : m.readsBack (m.neighbours 0).1 = true := by
      refine readsBack_of_value word ?_
      rw [whole, ← floor]
      simp [neighbours, Decimal.value, Magnitude.floor]
    unfold onGrid?
    dsimp only
    rw [reads]
    cases m.readsBack (m.neighbours 0).2 <;> rfl
  have above : 0 ≤ m.shortest.exponent := by
    refine le_exponent_shortest ⟨(Nat.toDigits 10 i).length - 1, ?_, ?_⟩ unitary
    · have few : (Nat.toDigits 10 i).length ≤ 16 :=
        (Nat.length_toDigits_le_iff (by decide) (by decide)).mpr (Nat.lt_trans small (by decide))
      omega
    · have some : 0 < (Nat.toDigits 10 i).length := Nat.length_toDigits_pos
      rw [decimalPoint, floor, if_pos (Nat.pos_of_ne_zero positive)]
      omega
  refine ⟨above, ?_⟩
  obtain ⟨e, exponent⟩ := Int.eq_ofNat_of_zero_le above
  have value : m.shortest.value = (m.shortest.coefficient * 10 ^ e : Nat) := by
    rw [Decimal.value, exponent, zpow_natCast]
    push_cast
    rfl
  have nearest := m.shortest.nearest_value
  rw [nearest_shortest word, value] at nearest
  rw [value, (nearest.value_eq_iff small).mp whole]

end

end Magnitude

end ReactiveQuery
